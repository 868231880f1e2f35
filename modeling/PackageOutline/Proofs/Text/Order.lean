import Mathlib.Data.String.Basic
import Mathlib.Tactic.SplitIfs
import PackageOutline.Proofs.Text.Utf8

/-! # The order of texts

Texts are in the order of their bytes (`Utf8.encode_lt_iff`): a character with a larger value has larger
bytes, whatever follows. -/

namespace PackageOutline

namespace Utf8

/-- The first byte of the character with a value, as a number. -/
def lead (v : Nat) : Nat :=
  if v < 0x80 then v
  else if v < 0x800 then v / 64 + 192
  else if v < 0x10000 then v / 4096 + 224
  else v / 262144 + 240

/-- The bytes behind the first one. -/
def behind (v : Nat) : Bytes :=
  if v < 0x80 then []
  else if v < 0x800 then [tail v]
  else if v < 0x10000 then [tail (v / 64), tail v]
  else [tail (v / 4096), tail (v / 64), tail v]

variable {v w n m : Nat}

theorem utf8EncodeChar_eq (h : v < 0xD800 ∨ 0xDFFF < v ∧ v < 0x110000) :
    String.utf8EncodeChar (Char.ofNat v) = UInt8.ofNat (lead v) :: behind v := by
  unfold lead behind
  split_ifs with h₁ h₂ h₃
  · exact utf8EncodeChar_one h₁
  · exact utf8EncodeChar_two (by omega) h₂
  · exact utf8EncodeChar_three (by omega) (by omega)
  · exact utf8EncodeChar_four (by omega) (by omega)

theorem ofNat_lt (hm : m < 256) (h : n < m) : UInt8.ofNat n < UInt8.ofNat m := by
  rw [UInt8.lt_iff_toNat_lt, toNat_ofNat_of_lt (by omega), toNat_ofNat_of_lt hm]
  exact h

theorem tail_lt (h : v % 64 < w % 64) : tail v < tail w := ofNat_lt (by omega) (by omega)

theorem lead_lt (h : v < 0x110000) : lead v < 256 := by
  unfold lead
  split_ifs <;> omega

theorem lead_mono (h : v ≤ w) : lead v ≤ lead w := by
  unfold lead
  split_ifs <;> omega

theorem behind_append_lt (h : v < w) (hw : w < 0x110000) (hlead : lead v = lead w) (bs bs' : Bytes) :
    behind v ++ bs < behind w ++ bs' := by
  have first : ∀ {n m : Nat} (as as' : Bytes), n % 64 < m % 64 → tail n :: as < tail m :: as' :=
    fun _ _ hnm => List.cons_lt_cons_iff.mpr (.inl (tail_lt hnm))
  have later : ∀ {n m : Nat} {as as' : Bytes}, n % 64 = m % 64 → as < as' →
      tail n :: as < tail m :: as' :=
    fun hnm has => List.cons_lt_cons_iff.mpr (.inr ⟨tail_congr hnm, has⟩)
  unfold lead at hlead
  unfold behind
  split_ifs at hlead ⊢ <;> try omega
  · exact first _ _ (by omega)
  · by_cases h₁ : v / 64 % 64 < w / 64 % 64
    · exact first _ _ h₁
    · exact later (by omega) (first _ _ (by omega))
  · by_cases h₁ : v / 4096 % 64 < w / 4096 % 64
    · exact first _ _ h₁
    · by_cases h₂ : v / 64 % 64 < w / 64 % 64
      · exact later (by omega) (first _ _ h₂)
      · exact later (by omega) (later (by omega) (first _ _ (by omega)))

/-- The bytes of a character are below those of a larger one, whatever follows. -/
theorem utf8EncodeChar_append_lt {c d : Char} (h : c < d) (bs bs' : Bytes) :
    String.utf8EncodeChar c ++ bs < String.utf8EncodeChar d ++ bs' := by
  have hlt : c.val.toNat < d.val.toNat := UInt32.lt_iff_toNat_lt.mp (Char.lt_def.mp h)
  have hsize : d.val.toNat < 0x110000 := by
    have := value_valid d
    omega
  have hbytes : ∀ c : Char, String.utf8EncodeChar c =
      UInt8.ofNat (lead c.val.toNat) :: behind c.val.toNat := by
    intro c
    rw [← utf8EncodeChar_eq (value_valid c)]
    exact congrArg String.utf8EncodeChar (Char.ofNat_toNat c).symm
  rw [hbytes c, hbytes d, List.cons_append, List.cons_append, List.cons_lt_cons_iff]
  rcases Nat.lt_or_eq_of_le (lead_mono (Nat.le_of_lt hlt)) with hlead | hlead
  · exact .inl (ofNat_lt (lead_lt hsize) hlead)
  · exact .inr ⟨congrArg UInt8.ofNat hlead, behind_append_lt hlt hsize hlead bs bs'⟩

theorem flatMap_utf8EncodeChar_lt {cs ds : List Char} (h : cs < ds) :
    cs.flatMap String.utf8EncodeChar < ds.flatMap String.utf8EncodeChar := by
  induction cs generalizing ds with
  | nil =>
      cases ds with
      | nil => exact absurd h (List.lt_irrefl [])
      | cons d ds =>
          obtain ⟨b, bs, hb⟩ := List.exists_cons_of_length_pos (utf8EncodeChar_length_pos d)
          rw [List.flatMap_nil, List.flatMap_cons, hb]
          exact List.nil_lt_cons b _
  | cons c cs ih =>
      cases ds with
      | nil => exact absurd h (List.not_lt_nil _)
      | cons d ds =>
          rw [List.flatMap_cons, List.flatMap_cons]
          rcases List.cons_lt_cons_iff.mp h with hcd | ⟨rfl, hrest⟩
          · exact utf8EncodeChar_append_lt hcd _ _
          · exact List.append_left_lt (ih hrest)

/-- The bytes of texts are in the order of the texts. -/
theorem encode_lt_iff {s t : String} : encode s < encode t ↔ s < t := by
  have mono : ∀ {s t : String}, s < t → encode s < encode t :=
    fun h => flatMap_utf8EncodeChar_lt (String.lt_iff_toList_lt.mp h)
  refine ⟨fun h => ?_, mono⟩
  rcases lt_trichotomy s t with hlt | rfl | hgt
  · exact hlt
  · exact absurd h (List.lt_irrefl _)
  · exact absurd (mono hgt) (List.lt_asymm h)

theorem encode_le_iff {s t : String} : encode s ≤ encode t ↔ s ≤ t := by
  rw [← List.not_lt, encode_lt_iff, not_lt]

end Utf8

end PackageOutline
