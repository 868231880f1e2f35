import PackageOutline.Proofs.Entries
import PackageOutline.Proofs.Tree.Listing

/-! # Files of trees

`Tree.files` lists the regular files of a tree with their paths.  In a well-named tree they are what
look-up finds (`contents_of_mem_files`, `mem_files_of_contents`), each once (`nodup_files`). -/

namespace PackageOutline

namespace Tree

variable {α : Type} {t u : Tree α} {es : List (String × Tree α)} {n : String} {ns : List String}
  {c : Bytes}

mutual

/-- The regular files of a tree, each with its path. -/
def files : Tree α → List (List String × Bytes)
  | .file _ c => [([], c)]
  | .dir _ es => filesAll es

/-- The regular files of some entries. -/
def filesAll : List (String × Tree α) → List (List String × Bytes)
  | [] => []
  | (n, t) :: es => t.files.map (fun f => (n :: f.1, f.2)) ++ filesAll es

end

mutual

theorem length_files : ∀ t : Tree α, t.files.length = t.fileCount
  | .file _ _ => by simp [files]
  | .dir _ es => by rw [files, fileCount, length_filesAll es]

theorem length_filesAll : ∀ es : List (String × Tree α), (filesAll es).length = fileCountAll es
  | [] => rfl
  | (_, t) :: es => by
    rw [filesAll, fileCountAll, List.length_append, List.length_map, length_files t,
      length_filesAll es]

end

mutual

/-- The files of a tree are what look-up finds. -/
theorem contents_of_mem_files : ∀ t : Tree α, t.WellNamed → ∀ f ∈ t.files,
    (t.at? f.1).bind contents? = some f.2
  | .file _ c, _, f, hf => by
    rw [files, List.mem_singleton] at hf
    rw [hf]
    rfl
  | .dir _ es, w, f, hf => by
    rw [WellNamed] at w
    rw [files] at hf
    obtain ⟨n, ns, hn, hc⟩ := contents_of_mem_filesAll es w.1 w.2 f hf
    rw [hn]
    exact hc

theorem contents_of_mem_filesAll : ∀ es : List (String × Tree α), (Entries.keys es).Nodup →
    WellNamedAll es → ∀ f ∈ filesAll es, ∃ n ns, f.1 = n :: ns ∧
      ((Entries.get? n es).bind (at? ns)).bind contents? = some f.2
  | [], _, _, f, hf => by
    rw [filesAll] at hf
    cases hf
  | (m, t) :: es, hk, w, f, hf => by
    rw [Entries.keys_cons, List.nodup_cons] at hk
    rw [WellNamedAll] at w
    rw [filesAll, List.mem_append, List.mem_map] at hf
    rcases hf with ⟨g, hg, rfl⟩ | hf
    · refine ⟨m, g.1, rfl, ?_⟩
      rw [Entries.get?, if_pos rfl]
      exact contents_of_mem_files t w.1 g hg
    · obtain ⟨n, ns, hn, hc⟩ := contents_of_mem_filesAll es hk.2 w.2 f hf
      refine ⟨n, ns, hn, ?_⟩
      have hne : m ≠ n := by
        rintro rfl
        rw [Entries.get?_eq_none_iff.mpr hk.1] at hc
        cases hc
      rwa [Entries.get?, if_neg hne]

end

theorem mem_filesAll_of_get? {f : List String × Bytes} (hn : Entries.get? n es = some t)
    (hf : f ∈ t.files) : (n :: f.1, f.2) ∈ filesAll es := by
  induction es with
  | nil => cases hn
  | cons e es ih =>
      obtain ⟨m, u⟩ := e
      rw [Entries.get?] at hn
      rw [filesAll, List.mem_append]
      split at hn
      · rename_i hm
        obtain rfl := Option.some.inj hn
        exact .inl (List.mem_map.mpr ⟨f, hf, by rw [hm]⟩)
      · exact .inr (ih hn)

/-- What look-up finds is among the files of a tree. -/
theorem mem_files_of_contents (h : (t.at? ns).bind contents? = some c) : (ns, c) ∈ t.files := by
  induction ns generalizing t with
  | nil =>
      cases t with
      | file l b =>
          rw [files, ← Option.some.inj h]
          exact List.mem_singleton_self _
      | dir l es => cases h
  | cons n ns ih =>
      cases t with
      | file l b => cases h
      | dir l es =>
          rw [Tree.at?] at h
          obtain ⟨u, hu, hc⟩ := Option.bind_eq_some_iff.mp h
          obtain ⟨v, hv, hu⟩ := Option.bind_eq_some_iff.mp hu
          rw [files]
          exact mem_filesAll_of_get? hv (ih (by rw [hu]; exact hc))

mutual

theorem nodup_files : ∀ t : Tree α, t.WellNamed → t.files.Nodup
  | .file _ _, _ => by
    rw [files]
    exact List.nodup_singleton _
  | .dir _ es, w => by
    rw [WellNamed] at w
    rw [files]
    exact nodup_filesAll es w.1 w.2

theorem nodup_filesAll : ∀ es : List (String × Tree α), (Entries.keys es).Nodup → WellNamedAll es →
    (filesAll es).Nodup
  | [], _, _ => List.nodup_nil
  | (m, t) :: es, hk, w => by
    rw [Entries.keys_cons, List.nodup_cons] at hk
    rw [WellNamedAll] at w
    rw [filesAll, List.nodup_append]
    refine ⟨(nodup_files t w.1).map fun f g h => ?_, nodup_filesAll es hk.2 w.2, ?_⟩
    · exact Prod.ext (List.cons.inj (Prod.mk.inj h).1).2 (Prod.mk.inj h).2
    · rintro _ hf g hg rfl
      obtain ⟨f, -, rfl⟩ := List.mem_map.mp hf
      obtain ⟨n, ns, hn, hc⟩ := contents_of_mem_filesAll es hk.2 w.2 _ hg
      obtain ⟨u, hu, -⟩ := Option.bind_eq_some_iff.mp hc
      obtain ⟨v, hv, -⟩ := Option.bind_eq_some_iff.mp hu
      exact hk.1 ((List.cons.inj hn).1 ▸ Entries.mem_keys_of_get? hv)

end

end Tree

end PackageOutline
