import Mathlib.Data.List.Nodup
import PackageOutline.Tree.Basic

/-! # Listings

The listing of a tree is the sequence of all that stands below its top: paths, and the contents of
files, from the top down and in order.  In a well-named tree it says everything.

* `eq_of_listing`: a tree without labels is given by its listing.
* `WellNamed.mem_listing_iff`: it lists what look-up finds.
* `nodup_listing`: no path is listed twice.
* `WellNamed.names_at`: the names in a directory, in order, are those of its part of the listing.
* `fileCount_eq`: the files are those listed with contents. -/

namespace PackageOutline

namespace Tree

variable {α β : Type} {t u : Tree α} {es : List (String × Tree α)} {n : String}
  {path ns : List String}

mutual

/-- What stands below a tree that lies at a path: paths and, for files, contents. -/
def listing (path : List String) : Tree α → List (List String × Option Bytes)
  | .file .. => []
  | .dir _ es => listingAll path es

/-- Some entries of a directory that lies at a path, each followed by what stands below it. -/
def listingAll (path : List String) : List (String × Tree α) → List (List String × Option Bytes)
  | [] => []
  | (n, t) :: es => (path ++ [n], t.contents?) :: (t.listing (path ++ [n]) ++ listingAll path es)

end

/-- What stands at a path; the tree itself stands at the empty one. -/
def at? : List String → Tree α → Option (Tree α)
  | [], t => some t
  | n :: ns, t => (t.entry? n).bind (at? ns)

theorem find?_cons (n : String) (ns : List String) (t : Tree α) :
    t.find? (n :: ns) = (t.entry? n).bind (at? ns) := by
  induction ns generalizing n t with
  | nil =>
      rw [find?]
      cases t.entry? n <;> rfl
  | cons m ns ih =>
      rw [find?]
      congr 1
      exact funext fun u => ih m u

theorem find?_eq_at? (hn : ns ≠ []) (t : Tree α) : t.find? ns = t.at? ns := by
  cases ns with
  | nil => exact absurd rfl hn
  | cons n ns => exact find?_cons n ns t

theorem at?_append (ns ms : List String) (t : Tree α) :
    t.at? (ns ++ ms) = (t.at? ns).bind (at? ms) := by
  induction ns generalizing t with
  | nil => rfl
  | cons n ns ih =>
      rw [List.cons_append, at?, at?]
      cases t.entry? n with
      | none => rfl
      | some u => exact ih u

@[simp] theorem contents?_map (f : α → β) (t : Tree α) : (t.map f).contents? = t.contents? := by
  cases t <;> simp [map, contents?]

theorem names_map (f : α → β) (t : Tree α) : (t.map f).names = t.names := by
  cases t with
  | file l c => rfl
  | dir l es => exact keys_mapAll f es

theorem get?_mapAll (f : α → β) (n : String) (es : List (String × Tree α)) :
    Entries.get? n (mapAll f es) = (Entries.get? n es).map (map f) := by
  induction es with
  | nil => rfl
  | cons e es ih =>
      obtain ⟨m, t⟩ := e
      rw [mapAll, Entries.get?, Entries.get?, ih]
      split <;> rfl

theorem entry?_map (f : α → β) (n : String) (t : Tree α) :
    Tree.entry? n (t.map f) = (t.entry? n).map (map f) := by
  cases t with
  | file l c => simp [map, entry?, entries, Entries.get?]
  | dir l es =>
      rw [map]
      exact get?_mapAll f n es

theorem at?_map (f : α → β) (ns : List String) (t : Tree α) :
    (t.map f).at? ns = (t.at? ns).map (map f) := by
  induction ns generalizing t with
  | nil => rfl
  | cons n ns ih =>
      rw [at?, at?, entry?_map]
      cases t.entry? n with
      | none => rfl
      | some u => exact ih u

theorem contents_at?_plain (ns : List String) (t : Tree α) :
    (t.plain.at? ns).bind contents? = (t.at? ns).bind contents? := by
  rw [plain, at?_map]
  cases t.at? ns <;> simp

/-- What stands at a path: nothing, a directory, or a file with some contents. -/
def shape (t : Tree α) (ns : List String) : Option (Option Bytes) := (t.at? ns).map contents?

theorem shape_cons (t : Tree α) (n : String) (ns : List String) :
    t.shape (n :: ns) = (t.entry? n).bind (shape · ns) := by
  rw [shape, at?]
  cases t.entry? n <;> rfl

theorem shape_plain (t : Tree α) (ns : List String) : t.plain.shape ns = t.shape ns := by
  rw [shape, shape, plain, at?_map, Option.map_map]
  cases t.at? ns <;> simp

theorem shape_eq_file_iff {c : Bytes} :
    t.shape ns = some (some c) ↔ (t.at? ns).bind contents? = some c := by
  rw [shape]
  cases t.at? ns <;> simp

theorem contents_at?_of_plain {t : Tree α} {u : Tree β} (h : t.plain = u.plain)
    (ns : List String) : (t.at? ns).bind contents? = (u.at? ns).bind contents? := by
  rw [← contents_at?_plain, h, contents_at?_plain]

theorem listingAll_append (es fs : List (String × Tree α)) :
    listingAll path (es ++ fs) = listingAll path es ++ listingAll path fs := by
  induction es with
  | nil => rfl
  | cons e es ih =>
      obtain ⟨n, t⟩ := e
      simp [listingAll, ih]

theorem listing_eq (t : Tree α) : t.listing path = listingAll path t.entries := by
  cases t <;> simp [listing, listingAll, entries]

mutual

theorem listing_map (f : α → β) (path : List String) :
    ∀ t : Tree α, (t.map f).listing path = t.listing path
  | .file _ _ => by simp [map, listing]
  | .dir _ es => by rw [map, listing, listing, listingAll_mapAll f path es]

theorem listingAll_mapAll (f : α → β) (path : List String) :
    ∀ es : List (String × Tree α), listingAll path (mapAll f es) = listingAll path es
  | [] => rfl
  | (n, t) :: es => by
    rw [mapAll, listingAll, listingAll, listing_map f _ t, listingAll_mapAll f path es,
      contents?_map]

end

mutual

theorem wellNamed_map_iff (f : α → β) : ∀ t : Tree α, (t.map f).WellNamed ↔ t.WellNamed
  | .file _ _ => by simp [map, WellNamed]
  | .dir _ es => by rw [map, WellNamed, WellNamed, keys_mapAll, wellNamedAll_mapAll f es]

theorem wellNamedAll_mapAll (f : α → β) :
    ∀ es : List (String × Tree α), WellNamedAll (mapAll f es) ↔ WellNamedAll es
  | [] => by simp [mapAll, WellNamedAll]
  | (_, t) :: es => by
    rw [mapAll, WellNamedAll, WellNamedAll, wellNamed_map_iff f t, wellNamedAll_mapAll f es]

end

theorem wellNamedAll_iff :
    WellNamedAll es ↔ ∀ e ∈ es, e.2.WellNamed := by
  induction es with
  | nil => simp [WellNamedAll]
  | cons e es ih =>
      obtain ⟨n, t⟩ := e
      simp [WellNamedAll, ih]

theorem wellNamedAll_append {es fs : List (String × Tree α)} :
    WellNamedAll (es ++ fs) ↔ WellNamedAll es ∧ WellNamedAll fs := by
  induction es with
  | nil => simp [WellNamedAll]
  | cons e es ih =>
      obtain ⟨n, t⟩ := e
      rw [List.cons_append, WellNamedAll, WellNamedAll, ih, and_assoc]

theorem keys_sublist_listingAll (path : List String) (es : List (String × Tree α)) :
    ((Entries.keys es).map (path ++ [·])).Sublist ((listingAll path es).map Prod.fst) := by
  induction es with
  | nil => simp
  | cons e es ih =>
      obtain ⟨n, t⟩ := e
      rw [listingAll, Entries.keys_cons, List.map_cons, List.map_cons, List.map_append]
      exact (ih.trans (List.sublist_append_right _ _)).cons_cons _

/-! ### Paths in a listing -/

mutual

theorem path_of_mem_listing (path : List String) :
    ∀ t : Tree α, ∀ e ∈ t.listing path, ∃ n ns, n ∈ t.names ∧ e.1 = path ++ n :: ns
  | .file _ _, e, he => by simp [listing] at he
  | .dir _ es, e, he => by
    rw [listing] at he
    exact path_of_mem_listingAll path es e he

theorem path_of_mem_listingAll (path : List String) :
    ∀ es : List (String × Tree α), ∀ e ∈ listingAll path es,
      ∃ n ns, n ∈ Entries.keys es ∧ e.1 = path ++ n :: ns
  | [], e, he => by simp [listingAll] at he
  | (n, t) :: es, e, he => by
    rw [listingAll] at he
    rcases List.mem_cons.mp he with rfl | he
    · exact ⟨n, [], by simp, rfl⟩
    · rcases List.mem_append.mp he with he | he
      · obtain ⟨m, ms, -, hm⟩ := path_of_mem_listing (path ++ [n]) t e he
        exact ⟨n, m :: ms, by simp, by simp [hm]⟩
      · obtain ⟨m, ms, hmem, hm⟩ := path_of_mem_listingAll path es e he
        exact ⟨m, ms, by simp [hmem], hm⟩

end

/-! ### Trees from listings -/

/-- A list that is made of two parts, of which the second starts where a property stops to hold. -/
theorem append_inj_of_head {γ : Type} {p : γ → Bool} {as bs as' bs' : List γ}
    (ha : ∀ a ∈ as, p a = true) (ha' : ∀ a ∈ as', p a = true) (hb : ∀ b ∈ bs.head?, p b = false)
    (hb' : ∀ b ∈ bs'.head?, p b = false) (he : as ++ bs = as' ++ bs') : as = as' ∧ bs = bs' := by
  have stop : ∀ {l : List γ}, (∀ b ∈ l.head?, p b = false) → l.takeWhile p = [] := by
    intro l hl
    cases l with
    | nil => rfl
    | cons b l => rw [List.takeWhile_cons, hl b rfl]; rfl
  have hfirst := congrArg (List.takeWhile p) he
  rw [List.takeWhile_append_of_pos ha, List.takeWhile_append_of_pos ha', stop hb, stop hb',
    List.append_nil, List.append_nil] at hfirst
  exact ⟨hfirst, List.append_cancel_left (hfirst ▸ he)⟩

/-- What stands below an entry is listed with longer paths, and the entry after it is not. -/
theorem listing_append_inj {t u : Tree α} {es fs : List (String × Tree α)} {n : String}
    (he : t.listing (path ++ [n]) ++ listingAll path es =
      u.listing (path ++ [n]) ++ listingAll path fs) :
    t.listing (path ++ [n]) = u.listing (path ++ [n]) ∧ listingAll path es = listingAll path fs := by
  have below : ∀ t : Tree α, ∀ e ∈ t.listing (path ++ [n]),
      decide (path.length + 1 < e.1.length) = true := by
    intro t e hmem
    obtain ⟨m, ms, -, hm⟩ := path_of_mem_listing (path ++ [n]) t e hmem
    rw [hm]
    simp
  have beside : ∀ es : List (String × Tree α), ∀ e ∈ (listingAll path es).head?,
      decide (path.length + 1 < e.1.length) = false := by
    intro es e hmem
    cases es with
    | nil => cases hmem
    | cons e' es =>
        obtain ⟨m, t⟩ := e'
        obtain rfl := Option.some.inj hmem
        simp
  exact append_inj_of_head (below t) (below u) (beside es) (beside fs) he

mutual

/-- A tree without labels is given by its listing. -/
theorem eq_of_listing (path : List String) : ∀ t u : FileTree, t.contents? = u.contents? →
    t.listing path = u.listing path → t = u
  | .file _ b, .file _ c, hc, _ => by rw [Option.some.inj hc]
  | .dir _ es, .dir _ fs, _, hl => by rw [eq_of_listingAll path es fs hl]
  | .file .., .dir .., hc, _ => by cases hc
  | .dir .., .file .., hc, _ => by cases hc

theorem eq_of_listingAll (path : List String) : ∀ es fs : List (String × FileTree),
    listingAll path es = listingAll path fs → es = fs
  | [], [], _ => rfl
  | [], (_, _) :: _, hl => by cases hl
  | (_, _) :: _, [], hl => by cases hl
  | (n, t) :: es, (m, u) :: fs, hl => by
    obtain ⟨hhead, htail⟩ := List.cons.inj hl
    obtain ⟨hpath, hc⟩ := Prod.mk.inj hhead
    obtain rfl : n = m := by simpa using hpath
    obtain ⟨hbelow, hrest⟩ := listing_append_inj htail
    rw [eq_of_listing (path ++ [n]) t u hc hbelow, eq_of_listingAll path es fs hrest]

end

/-! ### Well-named trees -/

theorem WellNamed.nodup_names (w : t.WellNamed) : t.names.Nodup := by
  cases t with
  | file l c => exact List.nodup_nil
  | dir l es =>
      rw [WellNamed] at w
      exact w.1

theorem wellNamed_of_get? (w : WellNamedAll es) (ht : Entries.get? n es = some t) :
    t.WellNamed := by
  induction es with
  | nil => cases ht
  | cons e es ih =>
      obtain ⟨m, u⟩ := e
      rw [WellNamedAll] at w
      rw [Entries.get?] at ht
      split at ht
      · rw [← Option.some.inj ht]
        exact w.1
      · exact ih w.2 ht

theorem WellNamed.entry? (w : t.WellNamed) (hu : t.entry? n = some u) : u.WellNamed := by
  cases t with
  | file l c => cases hu
  | dir l es =>
      rw [WellNamed] at w
      exact wellNamed_of_get? w.2 hu

theorem mem_listingAll_iff {c : Option Bytes} (hk : (Entries.keys es).Nodup) :
    (path ++ n :: ns, c) ∈ listingAll path es ↔ ∃ t, Entries.get? n es = some t ∧
      (ns = [] ∧ t.contents? = c ∨ (path ++ n :: ns, c) ∈ t.listing (path ++ [n])) := by
  induction es with
  | nil => simp [listingAll, Entries.get?]
  | cons e es ih =>
      obtain ⟨m, u⟩ := e
      rw [Entries.keys_cons, List.nodup_cons] at hk
      rw [listingAll, List.mem_cons, List.mem_append, ih hk.2, Entries.get?]
      by_cases hm : m = n
      · subst hm
        rw [if_pos rfl, Entries.get?_eq_none_iff.mpr hk.1]
        simp [Prod.mk.injEq, eq_comm]
      · rw [if_neg hm]
        have hhead : ¬ (path ++ n :: ns, c) = (path ++ [m], u.contents?) := by
          simp [Ne.symm hm]
        have hbelow : (path ++ n :: ns, c) ∉ u.listing (path ++ [m]) := by
          intro hmem
          obtain ⟨k, ks, -, hk⟩ := path_of_mem_listing (path ++ [m]) u _ hmem
          simp [Ne.symm hm] at hk
        simp [hhead, hbelow]

/-- A well-named tree lists what look-up finds. -/
theorem WellNamed.mem_listing_iff {c : Option Bytes} (w : t.WellNamed) (path : List String)
    (hn : ns ≠ []) :
    (path ++ ns, c) ∈ t.listing path ↔ ∃ u, t.find? ns = some u ∧ u.contents? = c := by
  rw [find?_eq_at? hn]
  induction ns generalizing t path with
  | nil => exact absurd rfl hn
  | cons n ns ih =>
      rw [listing_eq, mem_listingAll_iff w.nodup_names, Tree.at?]
      cases hu : t.entry? n with
      | none =>
          rw [Tree.entry?] at hu
          simp [hu]
      | some u =>
          have wu := w.entry? hu
          rw [Tree.entry?] at hu
          simp only [hu, Option.some.injEq, exists_eq_left', Option.bind_some]
          cases ns with
          | nil =>
              have hbelow : (path ++ [n], c) ∉ u.listing (path ++ [n]) := by
                intro hmem
                obtain ⟨k, ks, -, hk⟩ := path_of_mem_listing (path ++ [n]) u _ hmem
                simp at hk
              simp [hbelow, Tree.at?]
          | cons m ms =>
              have := ih wu (path ++ [n]) (by simp)
              rw [List.append_assoc, List.singleton_append] at this
              simp [this]

mutual

/-- No path is listed twice. -/
theorem nodup_listing (path : List String) :
    ∀ t : Tree α, t.WellNamed → ((t.listing path).map Prod.fst).Nodup
  | .file _ _, _ => by simp [listing]
  | .dir _ es, w => by
    rw [WellNamed] at w
    rw [listing]
    exact nodup_listingAll path es w.1 w.2

theorem nodup_listingAll (path : List String) :
    ∀ es : List (String × Tree α), (Entries.keys es).Nodup → WellNamedAll es →
      ((listingAll path es).map Prod.fst).Nodup
  | [], _, _ => by simp [listingAll]
  | (n, t) :: es, hk, w => by
    rw [WellNamedAll] at w
    rw [Entries.keys_cons, List.nodup_cons] at hk
    rw [listingAll, List.map_cons, List.map_append, List.nodup_cons, List.nodup_append]
    have below : ∀ p ∈ (t.listing (path ++ [n])).map Prod.fst, ∃ m ms, p = path ++ n :: m :: ms := by
      intro p hp
      obtain ⟨e, he, rfl⟩ := List.mem_map.mp hp
      obtain ⟨m, ms, -, hm⟩ := path_of_mem_listing (path ++ [n]) t e he
      exact ⟨m, ms, by simp [hm]⟩
    have beside : ∀ p ∈ (listingAll path es).map Prod.fst, ∃ m ms, m ≠ n ∧ p = path ++ m :: ms := by
      intro p hp
      obtain ⟨e, he, rfl⟩ := List.mem_map.mp hp
      obtain ⟨m, ms, hmem, hm⟩ := path_of_mem_listingAll path es e he
      refine ⟨m, ms, ?_, hm⟩
      rintro rfl
      exact hk.1 hmem
    refine ⟨fun hmem => ?_, nodup_listing (path ++ [n]) t w.1, nodup_listingAll path es hk.2 w.2,
      fun p hp q hq hpq => ?_⟩
    · rcases List.mem_append.mp hmem with hmem | hmem
      · obtain ⟨m, ms, hm⟩ := below _ hmem
        simp at hm
      · obtain ⟨m, ms, hne, hm⟩ := beside _ hmem
        simp [Ne.symm hne] at hm
    · obtain ⟨m, ms, hm⟩ := below p hp
      obtain ⟨k, ks, hne, hk'⟩ := beside q hq
      rw [hpq, hk'] at hm
      simp [hne] at hm

end

/-! ### Counting files -/

mutual

theorem fileCount_eq (path : List String) : ∀ t : Tree α, t.fileCount =
    (t.listing path).countP (·.2.isSome) + if t.isDir then 0 else 1
  | .file _ _ => by simp [fileCount, listing, isDir]
  | .dir _ es => by
    rw [fileCount, listing, fileCountAll_eq path es]
    simp [isDir]

theorem fileCountAll_eq (path : List String) : ∀ es : List (String × Tree α),
    fileCountAll es = (listingAll path es).countP (·.2.isSome)
  | [] => rfl
  | (n, t) :: es => by
    rw [fileCountAll, listingAll, List.countP_cons, List.countP_append,
      fileCount_eq (path ++ [n]) t, fileCountAll_eq path es]
    cases t with
    | file _ _ => simp [isDir, contents?]; omega
    | dir _ _ => simp [isDir, contents?]

end

/-! ### Order -/

/-- The name of what is listed, if it lies in the directory at a path. -/
def nameIn (path : List String) (e : List String × Option Bytes) : Option String :=
  if e.1.dropLast = path then e.1.getLast? else none

theorem filterMap_nameIn_eq_nil {l : List (List String × Option Bytes)}
    (hl : ∀ e ∈ l, e.1.dropLast ≠ path) : l.filterMap (nameIn path) = [] := by
  rw [List.filterMap_eq_nil_iff]
  intro e he
  rw [nameIn, if_neg (hl e he)]

theorem filterMap_nameIn_top (es : List (String × Tree α)) :
    (listingAll path es).filterMap (nameIn path) = Entries.keys es := by
  induction es with
  | nil => rfl
  | cons e es ih =>
      obtain ⟨n, t⟩ := e
      have hbelow : (t.listing (path ++ [n])).filterMap (nameIn path) = [] := by
        refine filterMap_nameIn_eq_nil fun e he hp => ?_
        obtain ⟨m, ms, -, hm⟩ := path_of_mem_listing (path ++ [n]) t e he
        have hlen := congrArg List.length hp
        rw [hm] at hlen
        simp at hlen
      have hhead : nameIn path (path ++ [n], t.contents?) = some n := by
        rw [nameIn, List.dropLast_concat, if_pos rfl, List.getLast?_concat]
      rw [listingAll, List.filterMap_cons_some hhead, List.filterMap_append, hbelow, ih,
        List.nil_append, Entries.keys_cons]

theorem filterMap_nameIn_below (hk : (Entries.keys es).Nodup) (ht : Entries.get? n es = some t) :
    (listingAll path es).filterMap (nameIn (path ++ n :: ns)) =
      (t.listing (path ++ [n])).filterMap (nameIn (path ++ n :: ns)) := by
  induction es with
  | nil => cases ht
  | cons e es ih =>
      obtain ⟨m, u⟩ := e
      rw [Entries.keys_cons, List.nodup_cons] at hk
      have hhead : nameIn (path ++ n :: ns) (path ++ [m], u.contents?) = none := by
        rw [nameIn, List.dropLast_concat, if_neg (by simp)]
      rw [listingAll, List.filterMap_cons_none hhead, List.filterMap_append]
      rw [Entries.get?] at ht
      by_cases hm : m = n
      · rw [if_pos hm] at ht
        have hrest : (listingAll path es).filterMap (nameIn (path ++ n :: ns)) = [] := by
          refine filterMap_nameIn_eq_nil fun e he hp => ?_
          obtain ⟨k, ks, hmem, hks⟩ := path_of_mem_listingAll path es e he
          rw [hks] at hp
          cases ks with
          | nil =>
              rw [List.dropLast_concat] at hp
              simp at hp
          | cons k' ks =>
              rw [List.dropLast_append_cons, List.dropLast_cons_cons] at hp
              simp only [List.append_cancel_left_eq, List.cons.injEq] at hp
              exact hk.1 (hm ▸ hp.1 ▸ hmem)
        rw [hrest, List.append_nil, hm, Option.some.inj ht]
      · rw [if_neg hm] at ht
        have hfirst : (u.listing (path ++ [m])).filterMap (nameIn (path ++ n :: ns)) = [] := by
          refine filterMap_nameIn_eq_nil fun e he hp => ?_
          obtain ⟨k, ks, -, hks⟩ := path_of_mem_listing (path ++ [m]) u e he
          rw [hks, List.append_assoc, List.singleton_append, List.dropLast_append_cons,
            List.dropLast_cons_cons] at hp
          simp only [List.append_cancel_left_eq, List.cons.injEq] at hp
          exact hm hp.1
        rw [hfirst, List.nil_append, ih hk.2 ht]

/-- The names in a directory, in order, are those listed. -/
theorem WellNamed.names_at (w : t.WellNamed) (path : List String) (hu : t.at? ns = some u) :
    (t.listing path).filterMap (nameIn (path ++ ns)) = u.names := by
  induction ns generalizing t path with
  | nil =>
      obtain rfl := Option.some.inj hu
      rw [List.append_nil, listing_eq, filterMap_nameIn_top]
      rfl
  | cons n ns ih =>
      rw [Tree.at?] at hu
      obtain ⟨v, hv, hu⟩ := Option.bind_eq_some_iff.mp hu
      have hbelow := ih (w.entry? hv) (path ++ [n]) hu
      rw [List.append_assoc, List.singleton_append] at hbelow
      rw [← hbelow, listing_eq, filterMap_nameIn_below w.nodup_names hv]

end Tree

end PackageOutline
