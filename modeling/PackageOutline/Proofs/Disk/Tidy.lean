import Mathlib.Data.List.Sort
import PackageOutline.Disk.Read
import PackageOutline.Proofs.Entries
import PackageOutline.Proofs.Text.Order
import PackageOutline.Proofs.Tree.Listing

/-! # Tidy trees

A tree is tidy when the entries of every directory are in the order of the bytes of their names, and no
two have one name.  A tidy tree without labels is given by what stands at its paths (`Tree.eq_of_tidy`).

`Tree.tidied` is a tree with its entries put in order and those of version control left out. -/

namespace PackageOutline

namespace Tree

variable {α : Type} {t u : Tree α} {es : List (String × Tree α)} {n : String} {ns : List String}
  {c : Option Bytes}

/-! ### Order -/

/-- Whether names are in the order of their bytes, none of them twice. -/
def Ordered (names : List String) : Prop := names.Pairwise fun m n => Utf8.encode m < Utf8.encode n

theorem Ordered.nodup {names : List String} (h : Ordered names) : names.Nodup := by
  refine List.Pairwise.imp ?_ h
  rintro m n hlt rfl
  exact List.lt_irrefl _ hlt

theorem ordered_of_le {names : List String} (h : names.Pairwise (· ≤ ·)) (hn : names.Nodup) :
    Ordered names :=
  (h.and hn).imp fun ⟨hle, hne⟩ => Utf8.encode_lt_iff.mpr (lt_of_le_of_ne hle hne)

mutual

/-- Whether the names in every directory are in the order of their bytes. -/
def Tidy : Tree α → Prop
  | .file .. => True
  | .dir _ es => Ordered (Entries.keys es) ∧ TidyAll es

/-- Whether some entries are tidy below their names. -/
def TidyAll : List (String × Tree α) → Prop
  | [] => True
  | (_, t) :: es => t.Tidy ∧ TidyAll es

end

theorem tidyAll_iff : TidyAll es ↔ ∀ e ∈ es, e.2.Tidy := by
  induction es with
  | nil => simp [TidyAll]
  | cons e es ih =>
      obtain ⟨n, t⟩ := e
      simp [TidyAll, ih]

mutual

theorem Tidy.wellNamed : ∀ t : Tree α, t.Tidy → t.WellNamed
  | .file _ _, _ => by
    rw [WellNamed]
    trivial
  | .dir _ es, h => by
    rw [Tidy] at h
    rw [WellNamed]
    exact ⟨h.1.nodup, TidyAll.wellNamed es h.2⟩

theorem TidyAll.wellNamed : ∀ es : List (String × Tree α), TidyAll es → WellNamedAll es
  | [], _ => by
    rw [WellNamedAll]
    trivial
  | (_, t) :: es, h => by
    rw [TidyAll] at h
    rw [WellNamedAll]
    exact ⟨Tidy.wellNamed t h.1, TidyAll.wellNamed es h.2⟩

end

/-! ### Trees from what stands in them -/

mutual

/-- A tidy tree without labels is given by what stands at its paths. -/
theorem eq_of_tidy : ∀ t u : FileTree, t.Tidy → u.Tidy → (∀ ns, t.shape ns = u.shape ns) → t = u
  | .file _ b, .file _ c, _, _, h => by
    have htop : some (some b) = some (some c) := h []
    rw [Option.some.inj (Option.some.inj htop)]
  | .dir _ es, .dir _ fs, ht, hu, h => by
    rw [Tidy] at ht hu
    rw [eq_of_tidyAll es fs ht.1 ht.2 hu.1 hu.2 fun n ns => ?_]
    have hentry := h (n :: ns)
    rwa [shape_cons, shape_cons] at hentry
  | .file .., .dir .., _, _, h => by cases h []
  | .dir .., .file .., _, _, h => by cases h []

theorem eq_of_tidyAll : ∀ es fs : List (String × FileTree), Ordered (Entries.keys es) → TidyAll es →
    Ordered (Entries.keys fs) → TidyAll fs → (∀ n ns, (Entries.get? n es).bind (shape · ns) =
      (Entries.get? n fs).bind (shape · ns)) → es = fs
  | [], [], _, _, _, _, _ => rfl
  | [], (m, u) :: fs, _, _, _, _, h => by
    have hm := h m []
    rw [Entries.get?, Entries.get?, if_pos rfl] at hm
    cases hm
  | (n, t) :: es, [], _, _, _, _, h => by
    have hn := h n []
    rw [Entries.get?, Entries.get?, if_pos rfl] at hn
    cases hn
  | (n, t) :: es, (m, u) :: fs, he, hes, hf, hfs, h => by
    rw [Ordered, Entries.keys_cons, List.pairwise_cons] at he hf
    rw [TidyAll] at hes hfs
    -- the first names are the least of those that lead somewhere
    have there : ∀ {es fs : List (String × FileTree)} {n : String}, n ∈ Entries.keys es →
        (∀ ns, (Entries.get? n es).bind (shape · ns) = (Entries.get? n fs).bind (shape · ns)) →
          n ∈ Entries.keys fs := by
      intro es fs n hn hsame
      obtain ⟨t, ht⟩ := Entries.exists_of_mem_keys hn
      refine Decidable.by_contra fun hnot => ?_
      have htop := hsame []
      rw [ht, Entries.get?_eq_none_iff.mpr hnot] at htop
      cases htop
    have hnm : n = m := by
      refine Decidable.by_contra fun hne => ?_
      have hn : n ∈ Entries.keys ((m, u) :: fs) := there List.mem_cons_self (h n)
      have hm : m ∈ Entries.keys ((n, t) :: es) :=
        there List.mem_cons_self fun ns => (h m ns).symm
      have hlt := hf.1 n ((List.mem_cons.mp hn).resolve_left hne)
      exact List.lt_asymm hlt (he.1 m ((List.mem_cons.mp hm).resolve_left (Ne.symm hne)))
    subst hnm
    have htu : t = u := eq_of_tidy t u hes.1 hfs.1 fun ns => by
      have hn := h n ns
      rwa [Entries.get?, Entries.get?, if_pos rfl, if_pos rfl] at hn
    have hrest : es = fs := eq_of_tidyAll es fs he.2 hes.2 hf.2 hfs.2 fun k ns => by
      by_cases hk : n = k
      · subst hk
        have hfresh : ∀ {es : List (String × FileTree)}, (∀ m ∈ Entries.keys es,
            Utf8.encode n < Utf8.encode m) → Entries.get? n es = none :=
          fun hlt => Entries.get?_eq_none_iff.mpr fun hmem => List.lt_irrefl _ (hlt n hmem)
        rw [hfresh he.1, hfresh hf.1]
      · have hrest := h k ns
        rwa [Entries.get?, Entries.get?, if_neg hk, if_neg hk] at hrest
    rw [htu, hrest]

end

/-! ### Putting a tree in order -/

/-- Entries in the order of the bytes of their names. -/
def ordered (es : List (String × Tree α)) : List (String × Tree α) :=
  es.insertionSort fun e f => Utf8.encode e.1 ≤ Utf8.encode f.1

mutual

/-- The tree with the entries of every directory in the order of the bytes of their names, and without
those that have a name of version control. -/
def tidied : Tree α → FileTree
  | .file _ c => .file () c
  | .dir _ es => .dir () (ordered (tidiedAll es))

/-- Some entries, without those of version control, and with the others put in order below their
names. -/
def tidiedAll : List (String × Tree α) → List (String × FileTree)
  | [] => []
  | (n, t) :: es => if Disk.isIgnored n then tidiedAll es else (n, t.tidied) :: tidiedAll es

end

theorem keys_tidiedAll (es : List (String × Tree α)) :
    Entries.keys (tidiedAll es) = (Entries.keys es).filter (!Disk.isIgnored ·) := by
  induction es with
  | nil => rfl
  | cons e es ih =>
      obtain ⟨n, t⟩ := e
      rw [tidiedAll, Entries.keys_cons, List.filter_cons]
      cases hn : Disk.isIgnored n with
      | true => simp [ih]
      | false => simp [ih]

theorem nodup_keys_tidiedAll (h : (Entries.keys es).Nodup) : (Entries.keys (tidiedAll es)).Nodup := by
  rw [keys_tidiedAll]
  exact h.filter _

theorem get?_tidiedAll (n : String) (es : List (String × Tree α)) :
    Entries.get? n (tidiedAll es) =
      if Disk.isIgnored n then none else (Entries.get? n es).map tidied := by
  induction es with
  | nil => simp [tidiedAll, Entries.get?]
  | cons e es ih =>
      obtain ⟨m, t⟩ := e
      rw [tidiedAll, Entries.get?]
      by_cases hm : m = n
      · subst hm
        rw [if_pos rfl]
        split
        · rw [ih, if_pos ‹_›]
        · rw [Entries.get?, if_pos rfl, Option.map_some]
      · rw [if_neg hm, ← ih]
        split
        · rfl
        · rw [Entries.get?, if_neg hm]

theorem perm_ordered (es : List (String × Tree α)) : (ordered es).Perm es :=
  List.perm_insertionSort _ es

theorem keys_ordered (hk : (Entries.keys es).Nodup) : Ordered (Entries.keys (ordered es)) := by
  have total : Std.Total fun e f : String × Tree α => Utf8.encode e.1 ≤ Utf8.encode f.1 :=
    ⟨fun e f => by simpa only [Utf8.encode_le_iff] using le_total e.1 f.1⟩
  have trans : IsTrans (String × Tree α) fun e f => Utf8.encode e.1 ≤ Utf8.encode f.1 :=
    ⟨fun e f g => by simpa only [Utf8.encode_le_iff] using le_trans⟩
  have hsorted : (ordered es).Pairwise fun e f => Utf8.encode e.1 ≤ Utf8.encode f.1 :=
    List.pairwise_insertionSort _ es
  refine ordered_of_le ?_ (((perm_ordered es).map Prod.fst).nodup_iff.mpr hk)
  exact List.pairwise_map.mpr (hsorted.imp Utf8.encode_le_iff.mp)

mutual

theorem tidy_tidied : ∀ t : Tree α, t.WellNamed → t.tidied.Tidy
  | .file _ _, _ => by
    rw [tidied, Tidy]
    trivial
  | .dir _ es, w => by
    rw [WellNamed] at w
    rw [tidied, Tidy, tidyAll_iff]
    refine ⟨keys_ordered (nodup_keys_tidiedAll w.1), fun e he => ?_⟩
    exact tidyAll_iff.mp (tidyAll_tidiedAll es w.2) e ((perm_ordered _).mem_iff.mp he)

theorem tidyAll_tidiedAll : ∀ es : List (String × Tree α), WellNamedAll es → TidyAll (tidiedAll es)
  | [], _ => by
    rw [tidiedAll, TidyAll]
    trivial
  | (n, t) :: es, w => by
    rw [WellNamedAll] at w
    rw [tidiedAll]
    split
    · exact tidyAll_tidiedAll es w.2
    · rw [TidyAll]
      exact ⟨tidy_tidied t w.1, tidyAll_tidiedAll es w.2⟩

end

theorem entry?_tidied (w : t.WellNamed) (n : String) :
    Tree.entry? n t.tidied = if Disk.isIgnored n then none else (t.entry? n).map tidied := by
  cases t with
  | file l c =>
      rw [tidied]
      simp [entries, entry?, Entries.get?]
  | dir l es =>
      rw [WellNamed] at w
      rw [tidied]
      show Entries.get? n (ordered (tidiedAll es)) = _
      rw [Entries.get?_of_perm (perm_ordered _) (nodup_keys_tidiedAll w.1), get?_tidiedAll]
      rfl

/-- What stands in a tree that was put in order stood there before, and has no name of version control
on its path. -/
theorem shape_tidied (w : t.WellNamed) (ns : List String) : t.tidied.shape ns = some c ↔
    (∀ n ∈ ns, Disk.isIgnored n = false) ∧ t.shape ns = some c := by
  induction ns generalizing t with
  | nil => cases t <;> simp [tidied, shape, at?, contents?]
  | cons n ns ih =>
      rw [shape_cons, shape_cons, entry?_tidied w, List.forall_mem_cons, and_assoc]
      cases hn : Disk.isIgnored n with
      | true => simp
      | false =>
          cases hu : t.entry? n with
          | none => simp
          | some u => simpa using ih (w.entry? hu)

end Tree

end PackageOutline
