import PackageOutline.Proofs.Disk.Rereading

/-! # Paths that lead nowhere yet

Whatever is on disk, a path has one place that it can lead to (`Path.place`).  It is vacant when nothing
stands there and the path passes no place below (`Disk.Vacant`).  So is a path that does not exist, when
every `..` in it leaves what is there already (`vacant_of_missing`). -/

namespace PackageOutline

namespace Path

variable {p : Path} {ps qs place : List Bytes}

theorem prefix_lead (h : dotDot ∉ qs) (place : List Bytes) : place <+: lead place qs := by
  induction qs generalizing place with
  | nil => exact List.prefix_rfl
  | cons q qs ih =>
      rw [List.mem_cons, not_or] at h
      rw [lead, if_neg (Ne.symm h.1)]
      split
      · exact (List.prefix_append place [q]).trans (ih h.2 _)
      · exact ih h.2 place

end Path

namespace Disk

variable {d d' : Disk} {p : Path} {ps place r : List Bytes} {P : List Bytes → Prop}

theorem exists_of_walk {node : DiskNode} (h : d.top.find? place = some node)
    (hw : d.walk place ps = .ok r) : ∃ m, d.top.find? r = some m := by
  induction ps generalizing place node with
  | nil => exact ⟨node, Except.ok.inj hw ▸ h⟩
  | cons piece ps ih =>
      rw [walk] at hw
      obtain ⟨place', hs, hrest⟩ := bind_eq_ok.mp hw
      obtain ⟨es, hes, ⟨-, rfl⟩ | ⟨-, rfl⟩ | ⟨-, -, hhas, rfl⟩⟩ := step_eq_ok.mp hs
      · exact ih hes hrest
      · -- what lies above something is there
        cases hup : d.top.find? place.dropLast with
        | some m => exact ih hup hrest
        | none =>
            obtain ⟨last, hlast⟩ := List.dropLast_prefix place
            rw [← hlast, DiskNode.find?_append, hup] at hes
            cases hes
      · obtain ⟨m, hm⟩ := Option.isSome_iff_exists.mp hhas
        exact ih ((DiskNode.find?_concat hes piece).trans hm) hrest

/-- Whether nothing stands where a path can lead, and the path passes no place below. -/
structure Vacant (d : Disk) (p : Path) : Prop where
  nonempty : p.bytes ≠ []
  nothing : d.view p.place = .nothing
  straight : ∀ place, p.OnWay place → p.place <+: place → place = p.place

/-- Below a vacant path nothing is seen. -/
theorem Vacant.below (v : Vacant d p) (rest : List Bytes) : d.view (p.place ++ rest) = .nothing := by
  rw [view, DiskNode.find?_append, DiskNode.view_eq_nothing_iff.mp v.nothing]
  rfl

theorem walk_or_prefix
    (hup : ∀ ps, ps ++ [Path.dotDot] <+: p.pieces → ∃ place, d.walk [] ps = .ok place)
    (h : ps <+: p.pieces) :
    (∃ place, d.walk [] ps = .ok place) ∨ Path.lead [] ps <+: p.place := by
  obtain ⟨qs, hqs⟩ := h
  by_cases hstep : Path.dotDot ∈ qs
  · obtain ⟨as, bs, rfl⟩ := List.append_of_mem hstep
    obtain ⟨place, hw⟩ := hup (ps ++ as) ⟨bs, by simp [← hqs]⟩
    rw [walk_append] at hw
    obtain ⟨place', hw, -⟩ := bind_eq_ok.mp hw
    exact .inl ⟨place', hw⟩
  · rw [Path.place, ← hqs, Path.lead_append]
    exact .inr (Path.prefix_lead hstep _)

theorem step_of_extends {node : DiskNode} {piece : Bytes} (e : Extends P d d')
    (hnode : d.top.find? place = some node) (hstep : d'.step place piece = .ok r)
    (hthere : Path.isName piece = true → ∃ k, d.top.find? (place ++ [piece]) = some k) :
    ∃ r, d.step place piece = .ok r := by
  obtain ⟨es', hes', hstep⟩ := step_eq_ok.mp hstep
  obtain ⟨m', hm', hkind⟩ := e.stays hnode
  rw [hes'] at hm'
  obtain rfl := Option.some.inj hm'
  cases node with
  | file c => cases hkind
  | dir es =>
      rcases hstep with ⟨hidle, -⟩ | ⟨hup, -⟩ | ⟨hname, hlen, -, -⟩
      · exact ⟨_, step_eq_ok.mpr ⟨es, hnode, .inl ⟨hidle, rfl⟩⟩⟩
      · exact ⟨_, step_eq_ok.mpr ⟨es, hnode, .inr (.inl ⟨hup, rfl⟩)⟩⟩
      · obtain ⟨k, hk⟩ := hthere hname
        rw [DiskNode.find?_concat hnode] at hk
        exact ⟨_, step_eq_ok.mpr ⟨es, hnode, .inr (.inr
          ⟨hname, hlen, Option.isSome_iff_exists.mpr ⟨k, hk⟩, rfl⟩)⟩⟩

/-- When something is at the place of a path, each part of the path leads somewhere, if the steps up do
and the whole of it does with more on disk. -/
theorem walks_of_present {node : DiskNode}
    (hup : ∀ ps, ps ++ [Path.dotDot] <+: p.pieces → ∃ place, d.walk [] ps = .ok place)
    (hnode : d.top.find? p.place = some node) (e : Extends P d d')
    (hw' : d'.walk [] p.pieces = .ok r) (hps : ps <+: p.pieces) :
    ∃ place, d.walk [] ps = .ok place := by
  induction ps using List.reverseRecOn with
  | nil => exact ⟨[], rfl⟩
  | append_singleton ps piece ih =>
      rcases walk_or_prefix hup hps with hw | hprefix
      · exact hw
      · obtain ⟨place, hw⟩ := ih ((List.prefix_append ps [piece]).trans hps)
        obtain ⟨m, hm⟩ := exists_of_walk rfl hw
        obtain ⟨qs, hqs⟩ := hps
        rw [← hqs, List.append_assoc, walk_append] at hw'
        obtain ⟨place₁, hw₁, hrest⟩ := bind_eq_ok.mp hw'
        obtain rfl : place₁ = place := (walk_eq_lead hw₁).trans (walk_eq_lead hw).symm
        obtain ⟨_, hs, -⟩ := bind_eq_ok.mp hrest
        -- a name leads on, as what is there lies below it
        obtain ⟨r, hr⟩ := step_of_extends e hm hs fun hname => by
          rw [Path.lead_concat_name hname, ← walk_eq_lead hw] at hprefix
          obtain ⟨rest, hrest⟩ := hprefix
          rw [← hrest, DiskNode.find?_append] at hnode
          obtain ⟨k, hk, -⟩ := Option.bind_eq_some_iff.mp hnode
          exact ⟨k, hk⟩
        refine ⟨r, ?_⟩
        rw [walk_append, hw]
        show d.walk place₁ [piece] = _
        rw [walk, hr]
        rfl

theorem view_place_of_missing
    (hup : ∀ ps, ps ++ [Path.dotDot] <+: p.pieces → ∃ place, d.walk [] ps = .ok place)
    (hmissing : ∀ node, d.stat p ≠ .ok node) (e : Extends P d d') (hr : d'.resolve p = .ok r) :
    d.view p.place = .nothing := by
  refine DiskNode.view_eq_nothing_iff.mpr (Option.eq_none_iff_forall_ne_some.mpr fun node hnode => ?_)
  obtain ⟨_, hcheck, hw'⟩ := bind_eq_ok.mp hr
  obtain ⟨place, hw⟩ := walks_of_present hup hnode e hw' List.prefix_rfl
  refine hmissing node (stat_eq_ok.mpr ⟨place, bind_eq_ok.mpr ⟨(), hcheck, hw⟩, ?_⟩)
  rw [walk_eq_lead hw]
  exact hnode

/-- A path that does not exist is vacant, when every step up in it leaves what is there. -/
theorem vacant_of_missing (hne : p.bytes ≠ []) (hmissing : ∀ node, d.stat p ≠ .ok node)
    (hup : ∀ ps, ps ++ [Path.dotDot] <+: p.pieces → ∃ place, d.walk [] ps = .ok place)
    (e : Extends P d d') (hr : d'.resolve p = .ok r) : Vacant d p := by
  have hnothing := view_place_of_missing hup hmissing e hr
  refine ⟨hne, hnothing, ?_⟩
  rintro _ ⟨ps, hps, rfl⟩ ⟨rest, hrest⟩
  rcases walk_or_prefix hup hps with ⟨place, hw⟩ | hprefix
  · -- what is there does not lie below where nothing is
    obtain ⟨m, hm⟩ := exists_of_walk rfl hw
    rw [walk_eq_lead hw, ← hrest, DiskNode.find?_append,
      DiskNode.view_eq_nothing_iff.mp hnothing] at hm
    cases hm
  · exact hprefix.eq_of_length_le (hrest ▸ (List.prefix_append ..).length_le)

end Disk

end PackageOutline
