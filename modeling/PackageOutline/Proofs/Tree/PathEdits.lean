import PackageOutline.Proofs.Tree.Listing

/-! # Changing trees at paths

Changes of a tree that name what they are about by its path and leave everything else where it is,
also in its order.

* `Tree.write` puts a regular file in place of what stands at a path.
* `Tree.renameAt` gives an entry of the directory at a path another name.
* `Tree.without` leaves out the entries at some paths.

In the listing the first changes one record (`listing_write`), the second puts records below another
path (`listing_renameAt`) and the third leaves out records (`listing_prune`).  The first two change
what stands below one entry only, which is all that a directory has to know about them
(`listingAll_replace`). -/

namespace PackageOutline

namespace Tree

variable {α : Type} {path : List String} {gone : List (List String)}
  {g : List String × Option Bytes → List String × Option Bytes}

/-- The tree with a regular file in place of what stands at a path. -/
def write (c : Bytes) : List String → FileTree → FileTree
  | [], _ => .file () c
  | _ :: _, .file l b => .file l b
  | n :: ns, .dir l es => .dir l (es.map fun e => if e.1 = n then (n, e.2.write c ns) else e)

/-- The tree with another name for an entry of the directory at a path. -/
def renameAt (old new : String) : List String → FileTree → FileTree
  | _, .file l b => .file l b
  | [], .dir l es => .dir l (es.map fun e => if e.1 = old then (new, e.2) else e)
  | n :: ns, .dir l es =>
    .dir l (es.map fun e => if e.1 = n then (n, e.2.renameAt old new ns) else e)

mutual

/-- A tree that lies at a path, without the entries at some paths. -/
def prune (gone : List (List String)) (path : List String) : Tree α → Tree α
  | .file l c => .file l c
  | .dir l es => .dir l (pruneAll gone path es)

/-- Some entries of a directory that lies at a path, without those at some paths. -/
def pruneAll (gone : List (List String)) (path : List String) :
    List (String × Tree α) → List (String × Tree α)
  | [] => []
  | (n, t) :: es =>
    if path ++ [n] ∈ gone then pruneAll gone path es
    else (n, t.prune gone (path ++ [n])) :: pruneAll gone path es

end

/-- The tree without the entries at some paths. -/
def without (gone : List (List String)) (t : Tree α) : Tree α := t.prune gone []

/-! ### Changes of one entry -/

theorem listing_subset_listingAll {n : String} {t : Tree α} {es : List (String × Tree α)}
    (hmem : (n, t) ∈ es) : t.listing (path ++ [n]) ⊆ listingAll path es := by
  induction es with
  | nil => cases hmem
  | cons e es ih =>
      obtain ⟨m, u⟩ := e
      intro r hr
      rw [listingAll]
      rcases List.mem_cons.mp hmem with he | hmem
      · obtain ⟨rfl, rfl⟩ := Prod.mk.inj he
        exact List.mem_cons_of_mem _ (List.mem_append_left _ hr)
      · exact List.mem_cons_of_mem _ (List.mem_append_right _ (ih hmem hr))

/-- A change of the entries of one name changes the listing as it does below these entries, when the
change leaves the records below entries of other names as they are. -/
theorem listingAll_replace {n : String} (f : String × FileTree → String × FileTree)
    (off : ∀ m ns c, m ≠ n → g (path ++ m :: ns, c) = (path ++ m :: ns, c))
    (es : List (String × FileTree))
    (on : ∀ t, (n, t) ∈ es → listingAll path [f (n, t)] = (listingAll path [(n, t)]).map g) :
    listingAll path (es.map fun e => if e.1 = n then f e else e) = (listingAll path es).map g := by
  induction es with
  | nil => rfl
  | cons e es ih =>
      obtain ⟨m, t⟩ := e
      have hhead : listingAll path [if m = n then f (m, t) else (m, t)] =
          (listingAll path [(m, t)]).map g := by
        by_cases hm : m = n
        · subst hm
          rw [if_pos rfl]
          exact on t List.mem_cons_self
        · rw [if_neg hm]
          refine ((List.map_congr_left fun e he => ?_).trans (List.map_id' _)).symm
          obtain ⟨k, ks, hk, hpath⟩ := path_of_mem_listingAll path _ e he
          obtain rfl : k = m := by simpa using hk
          have hid := off k ks e.2 hm
          rwa [← hpath] at hid
      have hrest := ih fun u hu => on u (List.mem_cons_of_mem _ hu)
      have hsplit : ∀ (e : String × FileTree) es,
          listingAll path (e :: es) = listingAll path [e] ++ listingAll path es :=
        fun e es => listingAll_append [e] es
      rw [List.map_cons, hsplit, hsplit (m, t), List.map_append, hhead, hrest]

/-! ### Writing a file -/

theorem contents?_write (c : Bytes) {ns : List String} (hn : ns ≠ []) (t : FileTree) :
    (t.write c ns).contents? = t.contents? := by
  cases ns with
  | nil => exact absurd rfl hn
  | cons n ns => cases t <;> rfl

theorem isDir_write (c : Bytes) {ns : List String} (hn : ns ≠ []) (t : FileTree) :
    (t.write c ns).isDir = t.isDir := by
  cases ns with
  | nil => exact absurd rfl hn
  | cons n ns => cases t <;> rfl

/-- A record with contents in place of its own if it is that of a path. -/
def rewritten (c : Bytes) (names : List String) (e : List String × Option Bytes) :
    List String × Option Bytes := if e.1 = names then (e.1, some c) else e

/-- Where nothing stands below a path, writing a file there changes one record. -/
theorem listing_write (c : Bytes) (ns path : List String) (t : FileTree)
    (ht : ∀ e ∈ t.listing path, ∀ m ms, e.1 ≠ path ++ ns ++ m :: ms) :
    (t.write c ns).listing path = (t.listing path).map (rewritten c (path ++ ns)) := by
  induction ns generalizing t path with
  | nil =>
      have hnil : t.listing path = [] := by
        refine List.eq_nil_iff_forall_not_mem.mpr fun e he => ?_
        obtain ⟨m, ms, -, hm⟩ := path_of_mem_listing path t e he
        exact ht e he m ms (by rw [hm, List.append_nil])
      rw [hnil]
      rfl
  | cons n ns ih =>
      cases t with
      | file l b => rfl
      | dir l es =>
          rw [listing] at ht
          rw [write, listing, listing]
          refine listingAll_replace (fun e => (n, e.2.write c ns)) (fun m ms b hm => ?_) es
            fun u hu => ?_
          · exact if_neg (by simp [hm])
          have hbelow := ih (path ++ [n]) u
          rw [List.append_assoc, List.singleton_append] at hbelow
          have hhead : rewritten c (path ++ n :: ns) (path ++ [n], u.contents?) =
              (path ++ [n], (u.write c ns).contents?) := by
            cases ns with
            | nil => exact if_pos rfl
            | cons k ks =>
                rw [contents?_write c (List.cons_ne_nil k ks)]
                exact if_neg (by simp)
          simp only [listingAll, List.map_cons, List.append_nil, hhead,
            hbelow fun e he => ht e (listing_subset_listingAll hu he)]

/-! ### Renaming an entry -/

theorem contents?_renameAt (old new : String) (ns : List String) (t : FileTree) :
    (t.renameAt old new ns).contents? = t.contents? := by
  cases t <;> cases ns <;> rfl

theorem isDir_renameAt (old new : String) (ns : List String) (t : FileTree) :
    (t.renameAt old new ns).isDir = t.isDir := by
  cases t <;> cases ns <;> rfl

/-- A record put below another path if it lies at or below a path. -/
def moved (src dst : List String) (e : List String × Option Bytes) : List String × Option Bytes :=
  if src <+: e.1 then (dst ++ e.1.drop src.length, e.2) else e

theorem moved_append (src dst ns : List String) (c : Option Bytes) :
    moved src dst (src ++ ns, c) = (dst ++ ns, c) := by
  unfold moved
  rw [if_pos (List.prefix_append src ns), List.drop_left]

mutual

/-- What stands below a tree is the same wherever the tree lies. -/
theorem listing_moved (src dst ns : List String) : ∀ t : Tree α,
    t.listing (dst ++ ns) = (t.listing (src ++ ns)).map (moved src dst)
  | .file _ _ => by simp [listing]
  | .dir _ es => by rw [listing, listing, listingAll_moved src dst ns es]

theorem listingAll_moved (src dst ns : List String) : ∀ es : List (String × Tree α),
    listingAll (dst ++ ns) es = (listingAll (src ++ ns) es).map (moved src dst)
  | [] => rfl
  | (n, t) :: es => by
    have hbelow := listing_moved src dst (ns ++ [n]) t
    rw [← List.append_assoc, ← List.append_assoc] at hbelow
    rw [listingAll, listingAll, hbelow, listingAll_moved src dst ns es, List.map_cons,
      List.map_append, List.append_assoc, List.append_assoc, moved_append]

end

/-- Renaming an entry puts what is listed at and below it below the new name. -/
theorem listing_renameAt (old new : String) (ns path : List String) (t : FileTree) :
    (t.renameAt old new ns).listing path =
      (t.listing path).map (moved (path ++ ns ++ [old]) (path ++ ns ++ [new])) := by
  induction ns generalizing t path with
  | nil =>
      cases t with
      | file l b => rfl
      | dir l es =>
          rw [renameAt, listing, listing, List.append_nil]
          refine listingAll_replace (fun e => (new, e.2)) (fun m ms b hm => ?_) es fun u _ => ?_
          · exact if_neg (by simp [List.prefix_append_right_inj, Ne.symm hm])
          have hhead := moved_append (path ++ [old]) (path ++ [new]) [] u.contents?
          have hbelow := listing_moved (path ++ [old]) (path ++ [new]) [] u
          rw [List.append_nil, List.append_nil] at hhead hbelow
          simp only [listingAll, List.map_cons, List.append_nil, hhead, hbelow]
  | cons n ns ih =>
      cases t with
      | file l b => rfl
      | dir l es =>
          rw [renameAt, listing, listing]
          refine listingAll_replace (fun e => (n, e.2.renameAt old new ns)) (fun m ms b hm => ?_) es
            fun u _ => ?_
          · exact if_neg (by simp [List.prefix_append_right_inj, Ne.symm hm])
          have hbelow := ih (path ++ [n]) u
          rw [List.append_assoc path, List.singleton_append] at hbelow
          have hhead : moved (path ++ n :: ns ++ [old]) (path ++ n :: ns ++ [new])
              (path ++ [n], u.contents?) = (path ++ [n], u.contents?) :=
            if_neg (by simp [List.prefix_append_right_inj])
          simp only [listingAll, List.map_cons, List.append_nil, contents?_renameAt, hhead, hbelow]

/-! ### Leaving out entries -/

theorem contents?_prune (gone : List (List String)) (path : List String) (t : Tree α) :
    (t.prune gone path).contents? = t.contents? := by
  cases t <;> simp [prune, contents?]

theorem isDir_without (gone : List (List String)) (t : Tree α) :
    (t.without gone).isDir = t.isDir := by
  cases t <;> simp [without, prune, isDir]

mutual

/-- What is left is listed as before, when with an entry all that stands below it is left out. -/
theorem listing_prune (gone : List (List String)) (path : List String) : ∀ t : Tree α,
    (∀ e ∈ t.listing path, ∀ e' ∈ t.listing path, e.1 <+: e'.1 → e.1 ∈ gone → e'.1 ∈ gone) →
      (t.prune gone path).listing path = (t.listing path).filter fun e => e.1 ∉ gone
  | .file _ _, _ => by simp [prune, listing]
  | .dir _ es, hc => by
    rw [listing] at hc
    rw [prune, listing, listing]
    exact listingAll_pruneAll gone path es hc

theorem listingAll_pruneAll (gone : List (List String)) (path : List String) :
    ∀ es : List (String × Tree α), (∀ e ∈ listingAll path es, ∀ e' ∈ listingAll path es,
      e.1 <+: e'.1 → e.1 ∈ gone → e'.1 ∈ gone) →
      listingAll path (pruneAll gone path es) = (listingAll path es).filter fun e => e.1 ∉ gone
  | [], _ => by simp [pruneAll, listingAll]
  | (n, t) :: es, hc => by
    rw [listingAll] at hc
    have hself : (path ++ [n], t.contents?) ∈
        (path ++ [n], t.contents?) :: (t.listing (path ++ [n]) ++ listingAll path es) :=
      List.mem_cons_self
    have hbelow : ∀ e ∈ t.listing (path ++ [n]),
        e ∈ (path ++ [n], t.contents?) :: (t.listing (path ++ [n]) ++ listingAll path es) :=
      fun e he => List.mem_cons_of_mem _ (List.mem_append_left _ he)
    have hbeside : ∀ e ∈ listingAll path es,
        e ∈ (path ++ [n], t.contents?) :: (t.listing (path ++ [n]) ++ listingAll path es) :=
      fun e he => List.mem_cons_of_mem _ (List.mem_append_right _ he)
    have hrest := listingAll_pruneAll gone path es fun e he e' he' =>
      hc e (hbeside e he) e' (hbeside e' he')
    rw [pruneAll, listingAll, List.filter_cons, List.filter_append]
    by_cases hn : path ++ [n] ∈ gone
    · have hnil : (t.listing (path ++ [n])).filter (fun e => e.1 ∉ gone) = [] := by
        refine List.filter_eq_nil_iff.mpr fun e he => ?_
        obtain ⟨m, ms, -, hm⟩ := path_of_mem_listing (path ++ [n]) t e he
        simpa using hc _ hself e (hbelow e he) ⟨m :: ms, hm.symm⟩ hn
      rw [if_pos hn, hrest, hnil]
      simp [hn]
    · have ht := listing_prune gone (path ++ [n]) t fun e he e' he' =>
        hc e (hbelow e he) e' (hbelow e' he')
      rw [if_neg hn, listingAll, contents?_prune, ht, hrest]
      simp [hn]

end

end Tree

end PackageOutline
