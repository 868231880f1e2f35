import Mathlib.Algebra.Group.Nat.Defs
import Mathlib.Logic.Basic
import PackageOutline.Text.Utf8

/-! # Text and its bytes

Encoded text is what `Utf8.decode` reads, and nothing else.

* `Utf8.next_append`: the bytes of a character are read as that character, whatever follows.
* `Utf8.eq_append_of_next`: what is read as a character are its bytes.
* `Utf8.decode_eq_ok_iff`: the bytes of a text decode to it, no other bytes decode.
* `Utf8.repair_encode`: the bytes of a text need no repair. -/

namespace PackageOutline

namespace Utf8

variable {b : UInt8} {bs : Bytes} {c : Char}

/-! ### Bytes as numbers -/

theorem isTail_iff : isTail b = true ↔ 128 ≤ b.toNat ∧ b.toNat ≤ 191 := by
  simp [isTail, UInt8.le_iff_toNat_le]

theorem tailBits_eq (b : UInt8) : tailBits b = b.toNat % 64 := by
  rw [tailBits, UInt8.toNat_and]
  exact Nat.and_two_pow_sub_one_eq_mod b.toNat 6

theorem toNat_ofNat_of_lt {n : Nat} (h : n < 256) : (UInt8.ofNat n).toNat = n := by
  rw [UInt8.toNat_ofNat']
  exact Nat.mod_eq_of_lt h

/-- The byte that continues a character with the lowest six bits of a number. -/
def tail (v : Nat) : UInt8 := UInt8.ofNat (v % 64 + 128)

theorem toNat_tail (v : Nat) : (tail v).toNat = v % 64 + 128 := toNat_ofNat_of_lt (by omega)

theorem eq_ofNat {n : Nat} (h : b.toNat = n) : b = UInt8.ofNat n := by
  rw [← h, UInt8.ofNat_toNat]

theorem eq_tail {v : Nat} (h : b.toNat = v % 64 + 128) : b = tail v := by
  rw [← UInt8.toNat_inj, toNat_tail, h]

theorem tail_congr {v w : Nat} (h : v % 64 = w % 64) : tail v = tail w := by
  rw [tail, tail, h]

theorem expects_eq (b : UInt8) : expects b =
    if 0xC2 ≤ b.toNat ∧ b.toNat ≤ 0xDF then some (1, 0x80, 0xBF)
    else if 0xE0 ≤ b.toNat ∧ b.toNat ≤ 0xEF then
      some (2, if b.toNat = 0xE0 then 0xA0 else 0x80, if b.toNat = 0xED then 0x9F else 0xBF)
    else if 0xF0 ≤ b.toNat ∧ b.toNat ≤ 0xF4 then
      some (3, if b.toNat = 0xF0 then 0x90 else 0x80, if b.toNat = 0xF4 then 0x8F else 0xBF)
    else none := by
  have table : ∀ n : Fin 256, expects (UInt8.ofFin n) =
      if 0xC2 ≤ n.val ∧ n.val ≤ 0xDF then some (1, 0x80, 0xBF)
      else if 0xE0 ≤ n.val ∧ n.val ≤ 0xEF then
        some (2, if n.val = 0xE0 then 0xA0 else 0x80, if n.val = 0xED then 0x9F else 0xBF)
      else if 0xF0 ≤ n.val ∧ n.val ≤ 0xF4 then
        some (3, if n.val = 0xF0 then 0x90 else 0x80, if n.val = 0xF4 then 0x8F else 0xBF)
      else none := by decide +kernel
  exact table b.toFin

theorem value_valid (c : Char) :
    c.val.toNat < 0xD800 ∨ 0xDFFF < c.val.toNat ∧ c.val.toNat < 0x110000 := c.valid

theorem value_ofNat {v : Nat} (h : v < 0xD800 ∨ 0xDFFF < v ∧ v < 0x110000) :
    (Char.ofNat v).val.toNat = v := by
  have hv : v.isValidChar := h
  rw [Char.ofNat, dif_pos hv]
  rfl

/-! ### One character -/

theorem nextTail_tail (size value v n : Nat) (bs : Bytes) :
    nextTail size value (n + 1) (tail v :: bs) =
      nextTail (size + 1) (value * 64 + v % 64) n bs := by
  have htail : isTail (tail v) = true := by
    rw [isTail_iff, toNat_tail]
    omega
  rw [nextTail, if_pos htail, tailBits_eq, toNat_tail]
  congr 2
  omega

theorem nextTail_eq_char {size value n k : Nat} (h : nextTail size value (n + 1) bs = .char c k) :
    ∃ v rest, bs = tail v :: rest ∧ v < 64 ∧
      nextTail (size + 1) (value * 64 + v) n rest = .char c k := by
  cases bs with
  | nil => cases h
  | cons b rest =>
      rw [nextTail] at h
      split at h
      · rename_i htail
        rw [isTail_iff] at htail
        rw [tailBits_eq] at h
        refine ⟨b.toNat % 64, rest, ?_, Nat.mod_lt _ (by decide), h⟩
        have hb : b = tail (b.toNat % 64) := by
          rw [← UInt8.toNat_inj, toNat_tail]
          omega
        rw [← hb]
      · cases h

/-- A first byte and the byte behind it, which is in the range the first one announces. -/
theorem next_cons {n : Nat} {low high b' : UInt8} (hb : 128 ≤ b.toNat)
    (he : expects b = some (n, low, high)) (hl : low.toNat ≤ b'.toNat)
    (hh : b'.toNat ≤ high.toNat) (bs : Bytes) :
    next (b :: b' :: bs) =
      nextTail 2 (b.toNat % 2 ^ (6 - n) * 64 + b'.toNat % 64) (n - 1) bs := by
  have hlow : ¬ b < 0x80 := by
    rw [UInt8.lt_iff_toNat_lt]
    exact Nat.not_lt.mpr hb
  have hrange : (low ≤ b' && b' ≤ high) = true := by
    simp [UInt8.le_iff_toNat_le, hl, hh]
  rw [next, if_neg hlow, he]
  simp only [hrange, if_true, tailBits_eq, Nat.one_shiftLeft]

theorem next_eq_char {k : Nat} (h : next (b :: bs) = .char c k) :
    (b.toNat < 128 ∧ c = Char.ofNat b.toNat ∧ k = 1) ∨
      ∃ n low high b' rest, 128 ≤ b.toNat ∧ expects b = some (n, low, high) ∧ bs = b' :: rest ∧
        low.toNat ≤ b'.toNat ∧ b'.toNat ≤ high.toNat ∧
        nextTail 2 (b.toNat % 2 ^ (6 - n) * 64 + b'.toNat % 64) (n - 1) rest = .char c k := by
  by_cases hb : b < 0x80
  · rw [next, if_pos hb] at h
    cases h
    exact .inl ⟨UInt8.lt_iff_toNat_lt.mp hb, rfl, rfl⟩
  · right
    rw [next, if_neg hb] at h
    split at h
    · cases h
    · rename_i n low high he
      split at h
      · cases h
      · rename_i b' rest
        split at h
        · rename_i hrange
          simp only [Bool.and_eq_true, decide_eq_true_eq, UInt8.le_iff_toNat_le] at hrange
          simp only [tailBits_eq, Nat.one_shiftLeft] at h
          rw [UInt8.lt_iff_toNat_lt] at hb
          exact ⟨n, low, high, b', rest, Nat.not_lt.mp hb, he, rfl, hrange.1, hrange.2, h⟩
        · cases h

/-! Characters of two, three and four bytes, by their values. -/

section

variable {v : Nat}

theorem utf8EncodeChar_one (h : v < 128) : String.utf8EncodeChar (Char.ofNat v) = [UInt8.ofNat v] := by
  unfold String.utf8EncodeChar
  rw [value_ofNat (by omega)]
  simp only
  rw [if_pos (by omega)]

theorem utf8EncodeChar_two (h : 128 ≤ v) (h' : v < 0x800) :
    String.utf8EncodeChar (Char.ofNat v) = [UInt8.ofNat (v / 64 + 192), tail v] := by
  unfold String.utf8EncodeChar
  rw [value_ofNat (by omega)]
  simp only
  rw [if_neg (by omega), if_pos (by omega), Nat.mod_eq_of_lt (by omega : v / 64 < 32)]
  rfl

theorem utf8EncodeChar_three (h : 0x800 ≤ v) (h' : v < 0xD800 ∨ 0xDFFF < v ∧ v < 0x10000) :
    String.utf8EncodeChar (Char.ofNat v) =
      [UInt8.ofNat (v / 4096 + 224), tail (v / 64), tail v] := by
  unfold String.utf8EncodeChar
  rw [value_ofNat (by omega)]
  simp only
  rw [if_neg (by omega), if_neg (by omega), if_pos (by omega),
    Nat.mod_eq_of_lt (by omega : v / 4096 < 16)]
  rfl

theorem utf8EncodeChar_four (h : 0x10000 ≤ v) (h' : v < 0x110000) :
    String.utf8EncodeChar (Char.ofNat v) =
      [UInt8.ofNat (v / 262144 + 240), tail (v / 4096), tail (v / 64), tail v] := by
  unfold String.utf8EncodeChar
  rw [value_ofNat (by omega)]
  simp only
  rw [if_neg (by omega), if_neg (by omega), if_neg (by omega),
    Nat.mod_eq_of_lt (by omega : v / 262144 < 8)]
  rfl

theorem next_one (h : v < 128) (bs : Bytes) :
    next (UInt8.ofNat v :: bs) = .char (Char.ofNat v) 1 := by
  have hb : (UInt8.ofNat v).toNat = v := toNat_ofNat_of_lt (by omega)
  have hlow : UInt8.ofNat v < 0x80 := by
    rw [UInt8.lt_iff_toNat_lt, hb]
    exact h
  rw [next, if_pos hlow, hb]

theorem next_two (h : 128 ≤ v) (h' : v < 0x800) (bs : Bytes) :
    next (UInt8.ofNat (v / 64 + 192) :: tail v :: bs) = .char (Char.ofNat v) 2 := by
  have hb : (UInt8.ofNat (v / 64 + 192)).toNat = v / 64 + 192 := toNat_ofNat_of_lt (by omega)
  have he := expects_eq (UInt8.ofNat (v / 64 + 192))
  rw [hb, if_pos (by omega)] at he
  rw [next_cons (by omega) he (by rw [toNat_tail]; simp) (by rw [toNat_tail]; simp; omega), hb,
    toNat_tail, nextTail]
  congr 2
  omega

theorem next_three (h : 0x800 ≤ v) (h' : v < 0xD800 ∨ 0xDFFF < v ∧ v < 0x10000) (bs : Bytes) :
    next (UInt8.ofNat (v / 4096 + 224) :: tail (v / 64) :: tail v :: bs) =
      .char (Char.ofNat v) 3 := by
  have hb : (UInt8.ofNat (v / 4096 + 224)).toNat = v / 4096 + 224 := toNat_ofNat_of_lt (by omega)
  have he := expects_eq (UInt8.ofNat (v / 4096 + 224))
  rw [hb, if_neg (by omega), if_pos (by omega)] at he
  have hlow : (if v / 4096 + 224 = 0xE0 then 0xA0 else 0x80 : UInt8).toNat ≤
      (tail (v / 64)).toNat := by
    simp only [toNat_tail, apply_ite UInt8.toNat, UInt8.reduceToNat]
    split <;> omega
  have hhigh : (tail (v / 64)).toNat ≤
      (if v / 4096 + 224 = 0xED then 0x9F else 0xBF : UInt8).toNat := by
    simp only [toNat_tail, apply_ite UInt8.toNat, UInt8.reduceToNat]
    split <;> omega
  rw [next_cons (by omega) he hlow hhigh, hb, toNat_tail, nextTail_tail, nextTail]
  congr 2
  omega

theorem next_four (h : 0x10000 ≤ v) (h' : v < 0x110000) (bs : Bytes) :
    next (UInt8.ofNat (v / 262144 + 240) :: tail (v / 4096) :: tail (v / 64) :: tail v :: bs) =
      .char (Char.ofNat v) 4 := by
  have hb : (UInt8.ofNat (v / 262144 + 240)).toNat = v / 262144 + 240 :=
    toNat_ofNat_of_lt (by omega)
  have he := expects_eq (UInt8.ofNat (v / 262144 + 240))
  rw [hb, if_neg (by omega), if_neg (by omega), if_pos (by omega)] at he
  have hlow : (if v / 262144 + 240 = 0xF0 then 0x90 else 0x80 : UInt8).toNat ≤
      (tail (v / 4096)).toNat := by
    simp only [toNat_tail, apply_ite UInt8.toNat, UInt8.reduceToNat]
    split <;> omega
  have hhigh : (tail (v / 4096)).toNat ≤
      (if v / 262144 + 240 = 0xF4 then 0x8F else 0xBF : UInt8).toNat := by
    simp only [toNat_tail, apply_ite UInt8.toNat, UInt8.reduceToNat]
    split <;> omega
  rw [next_cons (by omega) he hlow hhigh, hb, toNat_tail, nextTail_tail, nextTail_tail, nextTail]
  congr 2
  omega

end

/-- The bytes of a character are read as that character. -/
theorem next_append (c : Char) (bs : Bytes) :
    next (String.utf8EncodeChar c ++ bs) = .char c (String.utf8EncodeChar c).length := by
  have hvalid := value_valid c
  obtain ⟨v, hv, rfl⟩ : ∃ v, v = c.val.toNat ∧ Char.ofNat v = c := ⟨_, rfl, Char.ofNat_toNat c⟩
  rw [← hv] at hvalid
  by_cases h₁ : v < 128
  · rw [utf8EncodeChar_one h₁]
    exact next_one h₁ bs
  · by_cases h₂ : v < 0x800
    · rw [utf8EncodeChar_two (by omega) h₂]
      exact next_two (by omega) h₂ bs
    · by_cases h₃ : v < 0x10000
      · rw [utf8EncodeChar_three (by omega) (by omega)]
        exact next_three (by omega) (by omega) bs
      · rw [utf8EncodeChar_four (by omega) (by omega)]
        exact next_four (by omega) (by omega) bs

/-- What is read as a character are its bytes. -/
theorem eq_append_of_next {k : Nat} (h : next bs = .char c k) :
    ∃ rest, bs = String.utf8EncodeChar c ++ rest ∧ k = (String.utf8EncodeChar c).length := by
  cases bs with
  | nil => cases h
  | cons b bs =>
      rcases next_eq_char h with ⟨hb, rfl, rfl⟩ | ⟨n, low, high, b', rest, hb, he, rfl, hl, hh, h⟩
      · rw [utf8EncodeChar_one hb, UInt8.ofNat_toNat]
        exact ⟨bs, rfl, rfl⟩
      · rw [expects_eq] at he
        split at he
        · cases he
          simp only [UInt8.reduceToNat] at hl hh
          rw [nextTail] at h
          cases h
          rw [utf8EncodeChar_two (by omega) (by omega)]
          exact ⟨rest, congrArg₂ List.cons (eq_ofNat (by omega))
            (congrArg₂ List.cons (eq_tail (by omega)) rfl), rfl⟩
        · split at he
          · cases he
            have hb' : 128 ≤ b'.toNat ∧ b'.toNat ≤ 191 ∧ (b.toNat = 0xE0 → 0xA0 ≤ b'.toNat) ∧
                (b.toNat = 0xED → b'.toNat ≤ 0x9F) := by
              split at hl <;> split at hh <;> simp only [UInt8.reduceToNat] at hl hh <;> omega
            obtain ⟨v₁, rest, rfl, hv₁, h⟩ := nextTail_eq_char h
            rw [nextTail] at h
            cases h
            rw [utf8EncodeChar_three (by omega) (by omega)]
            exact ⟨rest, congrArg₂ List.cons (eq_ofNat (by omega))
              (congrArg₂ List.cons (eq_tail (by omega))
                (congrArg₂ List.cons (tail_congr (by omega)) rfl)), rfl⟩
          · split at he
            · cases he
              have hb' : 128 ≤ b'.toNat ∧ b'.toNat ≤ 191 ∧ (b.toNat = 0xF0 → 0x90 ≤ b'.toNat) ∧
                  (b.toNat = 0xF4 → b'.toNat ≤ 0x8F) := by
                split at hl <;> split at hh <;> simp only [UInt8.reduceToNat] at hl hh <;> omega
              obtain ⟨v₁, rest, rfl, hv₁, h⟩ := nextTail_eq_char h
              obtain ⟨v₂, rest, rfl, hv₂, h⟩ := nextTail_eq_char h
              rw [nextTail] at h
              cases h
              rw [utf8EncodeChar_four (by omega) (by omega)]
              exact ⟨rest, congrArg₂ List.cons (eq_ofNat (by omega))
                (congrArg₂ List.cons (eq_tail (by omega))
                  (congrArg₂ List.cons (tail_congr (by omega))
                    (congrArg₂ List.cons (tail_congr (by omega)) rfl))), rfl⟩
            · cases he

/-! ### Texts -/

theorem utf8EncodeChar_length_pos (c : Char) : 0 < (String.utf8EncodeChar c).length := by
  unfold String.utf8EncodeChar
  simp only
  split
  · simp
  · split
    · simp
    · split <;> simp

theorem nextTail_ne_done (size value n : Nat) (bs : Bytes) :
    nextTail size value n bs ≠ .done := by
  induction n generalizing size value bs with
  | zero => simp [nextTail]
  | succ n ih =>
      cases bs with
      | nil => simp [nextTail]
      | cons b bs =>
          rw [nextTail]
          split
          · exact ih _ _ bs
          · simp

theorem next_cons_ne_done (b : UInt8) (bs : Bytes) : next (b :: bs) ≠ .done := by
  rw [next]
  split
  · simp
  · split
    · simp
    · split
      · simp
      · split
        · exact nextTail_ne_done _ _ _ _
        · simp

theorem decodeFrom_flatMap (pos fuel : Nat) (cs : List Char)
    (hf : (cs.flatMap String.utf8EncodeChar).length ≤ fuel) :
    decodeFrom pos fuel (cs.flatMap String.utf8EncodeChar) = .ok cs := by
  induction fuel generalizing pos cs with
  | zero =>
      cases cs with
      | nil => rfl
      | cons c cs =>
          have := utf8EncodeChar_length_pos c
          rw [List.flatMap_cons, List.length_append] at hf
          omega
  | succ fuel ih =>
      cases cs with
      | nil => rfl
      | cons c cs =>
          have hpos := utf8EncodeChar_length_pos c
          rw [List.flatMap_cons, List.length_append] at hf
          rw [List.flatMap_cons, decodeFrom, next_append]
          simp only [List.drop_left]
          rw [ih _ cs (by omega)]
          rfl

theorem repairFrom_flatMap (fuel : Nat) (cs : List Char)
    (hf : (cs.flatMap String.utf8EncodeChar).length ≤ fuel) :
    repairFrom fuel (cs.flatMap String.utf8EncodeChar) = cs := by
  induction fuel generalizing cs with
  | zero =>
      cases cs with
      | nil => rfl
      | cons c cs =>
          have := utf8EncodeChar_length_pos c
          rw [List.flatMap_cons, List.length_append] at hf
          omega
  | succ fuel ih =>
      cases cs with
      | nil => rfl
      | cons c cs =>
          have hpos := utf8EncodeChar_length_pos c
          rw [List.flatMap_cons, List.length_append] at hf
          rw [List.flatMap_cons, repairFrom, next_append]
          simp only [List.drop_left]
          rw [ih cs (by omega)]

theorem eq_flatMap_of_decodeFrom {pos fuel : Nat} {cs : List Char} (hf : bs.length ≤ fuel)
    (h : decodeFrom pos fuel bs = .ok cs) : bs = cs.flatMap String.utf8EncodeChar := by
  induction fuel generalizing pos bs cs with
  | zero =>
      obtain rfl := List.length_eq_zero_iff.mp (Nat.le_zero.mp hf)
      cases h
      rfl
  | succ fuel ih =>
      rw [decodeFrom] at h
      split at h
      · rename_i hdone
        cases h
        cases bs with
        | nil => rfl
        | cons b bs => exact absurd hdone (next_cons_ne_done b bs)
      · rename_i c k hnext
        obtain ⟨rest, rfl, rfl⟩ := eq_append_of_next hnext
        have hpos := utf8EncodeChar_length_pos c
        rw [List.length_append] at hf
        rw [List.drop_left] at h
        cases hrest : decodeFrom (pos + (String.utf8EncodeChar c).length) fuel rest with
        | error e => rw [hrest] at h; cases h
        | ok cs' =>
            rw [hrest] at h
            cases h
            rw [List.flatMap_cons, ← ih (by omega) hrest]
      · cases h
      · cases h

/-- The bytes of a text decode to it, no other bytes decode. -/
theorem decode_eq_ok_iff {s : String} : decode bs = .ok s ↔ bs = encode s := by
  constructor
  · intro h
    unfold decode at h
    cases hcs : decodeFrom 0 bs.length bs with
    | error e => rw [hcs] at h; cases h
    | ok cs =>
        rw [hcs] at h
        cases h
        rw [eq_flatMap_of_decodeFrom (Nat.le_refl _) hcs, encode, String.toList_ofList]
  · rintro rfl
    rw [decode, encode, decodeFrom_flatMap 0 _ _ (Nat.le_refl _)]
    exact congrArg Except.ok String.ofList_toList

/-- The bytes of a text need no repair. -/
theorem repair_encode (s : String) : repair (encode s) = s := by
  rw [repair, encode, repairFrom_flatMap _ _ (Nat.le_refl _), String.ofList_toList]

end Utf8

end PackageOutline
