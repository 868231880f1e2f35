import PackageOutline.Kind
import PackageOutline.Path

/-! # Names on disk

Valid names are pieces of paths: encoding tells them apart, they hold no slash and none of them is a
step.  So the pieces of a path with some names appended (`Path.below`) are those of the path,
followed by the names (`Path.pieces_below`). -/

namespace PackageOutline

namespace Utf8

theorem encode_injective {s t : String} (h : encode s = encode t) : s = t := by
  rw [← String.toByteArray_inj, ← String.utf8Encode_toList, ← String.utf8Encode_toList,
    List.utf8Encode, List.utf8Encode]
  exact congrArg List.toByteArray h

theorem map_encode_injective {ns ms : List String} (h : ns.map encode = ms.map encode) : ns = ms :=
  (List.map_inj_right fun _ _ => encode_injective).mp h

@[simp] theorem encode_eq_nil_iff {s : String} : encode s = [] ↔ s = "" := by
  constructor
  · intro h
    exact encode_injective (h.trans rfl)
  · rintro rfl
    rfl

theorem mem_utf8EncodeChar {c : Char} {b : UInt8} (hb : b.toNat < 128)
    (h : b ∈ String.utf8EncodeChar c) : b.toNat = c.val.toNat := by
  unfold String.utf8EncodeChar at h
  simp only at h
  split at h
  · rw [List.mem_singleton.mp h, UInt8.toNat_ofNat']
    omega
  · split at h
    · simp only [List.mem_cons, List.not_mem_nil, or_false] at h
      rcases h with rfl | rfl <;> rw [UInt8.toNat_ofNat'] at hb <;> omega
    · split at h
      · simp only [List.mem_cons, List.not_mem_nil, or_false] at h
        rcases h with rfl | rfl | rfl <;> rw [UInt8.toNat_ofNat'] at hb <;> omega
      · simp only [List.mem_cons, List.not_mem_nil, or_false] at h
        rcases h with rfl | rfl | rfl | rfl <;> rw [UInt8.toNat_ofNat'] at hb <;> omega

theorem slash_not_mem_encode {s : String} (h : '/' ∉ s.toList) : Path.slash ∉ encode s := by
  intro hmem
  obtain ⟨c, hc, hb⟩ := List.mem_flatMap.mp hmem
  have hval := mem_utf8EncodeChar (by decide) hb
  have hslash : c = '/' := by
    refine Char.ext (UInt32.toNat_inj.mp ?_)
    rw [← hval]
    rfl
  exact h (hslash ▸ hc)

end Utf8

namespace Path

/-- The path of what lies below another by some names. -/
def below (p : Path) (names : List String) : Path :=
  names.foldl (fun p name => p.join (Utf8.encode name)) p

theorem below_concat (p : Path) (names : List String) (n : String) :
    p.below (names ++ [n]) = (p.below names).join (Utf8.encode n) := by
  rw [below, List.foldl_append]
  rfl

/-- Names that are single components of paths. -/
def Names (names : List String) : Prop := ∀ n ∈ names, Identifier.isValid n = true

theorem Names.head {n : String} {names : List String} (h : Names (n :: names)) :
    Identifier.isValid n = true := h n List.mem_cons_self

theorem Names.tail {n : String} {names : List String} (h : Names (n :: names)) : Names names :=
  fun m hm => h m (List.mem_cons_of_mem _ hm)

theorem names_nil : Names [] := fun _ h => by cases h

theorem names_singleton {n : String} (h : Identifier.isValid n = true) : Names [n] := by
  intro m hm
  rw [List.mem_singleton.mp hm]
  exact h

theorem Names.append {names names' : List String} (h : Names names) (h' : Names names') :
    Names (names ++ names') := by
  intro n hn
  rcases List.mem_append.mp hn with hn | hn
  · exact h n hn
  · exact h' n hn

/-- A valid name is a piece of its own. -/
theorem piece_of_isValid {n : String} (h : Identifier.isValid n = true) :
    isName (Utf8.encode n) = true ∧ slash ∉ Utf8.encode n := by
  obtain ⟨hempty, hdot, hdotDot, hslash⟩ := Identifier.isValid_iff.mp h
  refine ⟨?_, Utf8.slash_not_mem_encode hslash⟩
  have h₁ : Utf8.encode n ≠ [] := fun e => hempty (Utf8.encode_eq_nil_iff.mp e)
  have h₂ : Utf8.encode n ≠ dot := fun e => hdot (Utf8.encode_injective (e.trans (by decide)))
  have h₃ : Utf8.encode n ≠ dotDot := fun e => hdotDot (Utf8.encode_injective (e.trans (by decide)))
  simp [isName, h₁, h₂, h₃]

/-- The pieces in front of what is appended to a path. -/
def stem (p : Path) : List Bytes :=
  if p.bytes = [] then [] else if p.bytes.getLast? = some slash then p.pieces.dropLast else p.pieces

theorem pieces_join (p : Path) {piece : Bytes} (hs : slash ∉ piece) :
    (p.join piece).pieces = p.stem ++ [piece] := by
  have hhead : (piece.head? == some slash) = false := by
    cases piece with
    | nil => rfl
    | cons b bs => simpa using fun e : b = slash => hs (e ▸ List.mem_cons_self)
  unfold join stem
  rw [hhead, if_neg Bool.false_ne_true]
  by_cases hempty : p.bytes = []
  · simp [hempty, pieces, List.splitOn_eq_singleton hs]
  · by_cases hlast : p.bytes.getLast? = some slash
    · obtain ⟨bs, hbs⟩ := List.getLast?_eq_some_iff.mp hlast
      simp [pieces, hbs, List.splitOn_append_cons_self, List.splitOn_eq_singleton hs]
    · simp [hempty, hlast, pieces, List.splitOn_append_cons_self, List.splitOn_eq_singleton hs]

theorem bytes_join (p : Path) {piece : Bytes} (hne : piece ≠ []) (hs : slash ∉ piece) :
    (p.join piece).bytes ≠ [] ∧ (p.join piece).bytes.getLast? ≠ some slash := by
  have hlast : (p.join piece).bytes.getLast? = piece.getLast? := by
    obtain ⟨bs, b, rfl⟩ := (List.eq_nil_or_concat piece).resolve_left hne
    unfold join
    split
    · rfl
    · split <;> simp [List.getLast?_append, List.getLast?_cons]
  refine ⟨fun e => ?_, ?_⟩
  · rw [e] at hlast
    exact hne (List.getLast?_eq_none_iff.mp hlast.symm)
  · rw [hlast]
    exact fun e => hs (List.mem_of_getLast? e)

theorem stem_join (p : Path) {piece : Bytes} (hne : piece ≠ []) (hs : slash ∉ piece) :
    (p.join piece).stem = p.stem ++ [piece] := by
  obtain ⟨hbytes, hnot⟩ := bytes_join p hne hs
  rw [stem, if_neg hbytes, if_neg hnot, pieces_join p hs]

/-- The pieces of a path below another. -/
theorem pieces_below (p : Path) {names : List String} (h : Names names) (hne : names ≠ []) :
    (p.below names).pieces = p.stem ++ names.map Utf8.encode := by
  induction names generalizing p with
  | nil => exact absurd rfl hne
  | cons n names ih =>
      obtain ⟨hname, hslash⟩ := piece_of_isValid h.head
      cases names with
      | nil => exact pieces_join p hslash
      | cons m names =>
          have hpiece : Utf8.encode n ≠ [] := by
            intro e
            simp [isName, e] at hname
          have hrest := ih (p.join (Utf8.encode n)) h.tail (List.cons_ne_nil m names)
          rw [stem_join p hpiece hslash, List.append_assoc] at hrest
          exact hrest

theorem join_join (p : Path) {piece rest : Bytes} (hne : piece ≠ []) (hs : slash ∉ piece)
    (hr : rest.head? ≠ some slash) : (p.join piece).join rest = p.join (piece ++ slash :: rest) := by
  obtain ⟨hbytes, hnot⟩ := bytes_join p hne hs
  obtain ⟨b, bs, rfl⟩ := List.exists_cons_of_ne_nil hne
  have hb : b ≠ slash := fun e => hs (e ▸ List.mem_cons_self)
  rw [join, if_neg (by simpa using hr), if_neg (by simp [hbytes, hnot])]
  unfold join
  simp only [List.cons_append, List.head?_cons, Option.some_beq_some, beq_iff_eq, if_neg hb]
  split <;> simp

/-- What lies below a path is what the names, joined to one path, lead to. -/
theorem below_eq_join (p : Path) {names : List String} (h : Names names) (hne : names ≠ []) :
    p.below names = p.join (ofNames names).bytes := by
  induction names generalizing p with
  | nil => exact absurd rfl hne
  | cons n names ih =>
      obtain ⟨hname, hslash⟩ := piece_of_isValid h.head
      cases names with
      | nil => simp [ofNames, below]
      | cons m names =>
          have hpiece : ∀ {k}, Identifier.isValid k = true → Utf8.encode k ≠ [] := by
            intro k hk e
            simpa [isName, e] using (piece_of_isValid hk).1
          have hrest : (ofNames (m :: names)).bytes.head? ≠ some slash := by
            obtain ⟨b, bs, hb⟩ := List.exists_cons_of_ne_nil (hpiece h.tail.head)
            have hm := (piece_of_isValid h.tail.head).2
            rw [hb, List.mem_cons, not_or] at hm
            cases names with
            | nil => simp [ofNames, hb, Ne.symm hm.1]
            | cons k ks => simp [ofNames, List.intercalate_cons_cons, hb, Ne.symm hm.1]
          have hbelow := ih (p.join (Utf8.encode n)) h.tail (List.cons_ne_nil m names)
          show (p.join (Utf8.encode n)).below (m :: names) = _
          rw [hbelow, join_join p (hpiece h.head) hslash hrest]
          simp [ofNames, List.intercalate_cons_cons]

end Path

end PackageOutline
