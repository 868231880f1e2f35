import PackageOutline.Proofs.Entries
import PackageOutline.Proofs.Tree.Listing

/-! # Parts of trees

The parts of a tree are the tree itself and all that stands in it (`Tree.Part`).  An object is alive
when it is part of a tree that is held (`Tree.Alive`).

Where labels are identities of objects (`Tree.Identified`), a label is somewhere in a tree exactly when
its object is, and a new object with a label of its own can be added. -/

namespace PackageOutline

namespace Tree

variable {α : Type} {t u v : Tree α} {ns : List String}
  {held held' : List (Tree α)}

/-- `Part u t`: the tree `u` is `t` or stands in it. -/
inductive Part (u : Tree α) : Tree α → Prop
  | self : Part u u
  | entry {l : α} {es : List (String × Tree α)} {e : String × Tree α} :
      e ∈ es → Part u e.2 → Part u (.dir l es)

theorem Part.trans (h : Part u v) (h' : Part v t) : Part u t := by
  induction h' with
  | self => exact h
  | entry he _ ih => exact .entry he ih

theorem part_of_mem_entries {e : String × Tree α} (he : e ∈ t.entries) : Part e.2 t := by
  cases t with
  | file l c => cases he
  | dir l es => exact .entry he .self

theorem part_of_at? (h : t.at? ns = some u) : Part u t := by
  induction ns generalizing t with
  | nil =>
      obtain rfl := Option.some.inj h
      exact .self
  | cons n ns ih =>
      obtain ⟨v, hv, hrest⟩ := Option.bind_eq_some_iff.mp h
      exact (ih hrest).trans (part_of_mem_entries (Entries.mem_of_get? hv))

theorem part_of_find? (h : t.find? ns = some u) : Part u t := by
  cases ns with
  | nil => cases h
  | cons n ns => exact part_of_at? (find?_eq_at? (List.cons_ne_nil n ns) t ▸ h)

theorem WellNamed.entry?_of_mem {n : String} (w : t.WellNamed) (h : (n, u) ∈ t.entries) :
    t.entry? n = some u := by
  cases t with
  | file l c => cases h
  | dir l es => exact Entries.get?_of_mem w.1 h

mutual

theorem hasLabel_iff_part [DecidableEq α] (l : α) :
    ∀ t : Tree α, t.hasLabel l = true ↔ ∃ u, Part u t ∧ u.label = l
  | .file l' c => by
    rw [hasLabel, decide_eq_true_eq]
    refine ⟨fun h => ⟨_, .self, h⟩, fun ⟨u, hu, hl⟩ => ?_⟩
    cases hu
    exact hl
  | .dir l' es => by
    rw [hasLabel, Bool.or_eq_true, decide_eq_true_eq, hasLabelAll_iff_part l es]
    constructor
    · rintro (h | ⟨e, he, u, hu, hl⟩)
      · exact ⟨_, .self, h⟩
      · exact ⟨u, .entry he hu, hl⟩
    · rintro ⟨u, hu, hl⟩
      cases hu with
      | self => exact Or.inl hl
      | entry he hu => exact Or.inr ⟨_, he, u, hu, hl⟩

theorem hasLabelAll_iff_part [DecidableEq α] (l : α) : ∀ es : List (String × Tree α),
    hasLabelAll l es = true ↔ ∃ e ∈ es, ∃ u, Part u e.2 ∧ u.label = l
  | [] => by simp [hasLabelAll]
  | (n, t) :: es => by
    rw [hasLabelAll, Bool.or_eq_true, hasLabel_iff_part l t, hasLabelAll_iff_part l es,
      List.exists_mem_cons_iff]

end

/-! ### Objects that are alive -/

/-- Whether an object is part of one of the trees that are held. -/
def Alive (held : List (Tree α)) (t : Tree α) : Prop := ∃ u ∈ held, Part t u

theorem alive_of_mem (h : t ∈ held) : Alive held t := ⟨t, h, .self⟩

theorem Alive.part (h : Part u t) (a : Alive held t) : Alive held u := by
  obtain ⟨v, hv, hp⟩ := a
  exact ⟨v, hv, h.trans hp⟩

theorem Alive.mono (hh : ∀ v ∈ held, Alive held' v) (a : Alive held t) : Alive held' t := by
  obtain ⟨v, hv, hp⟩ := a
  exact (hh v hv).part hp

theorem Alive.subset (hh : held ⊆ held') (a : Alive held t) : Alive held' t :=
  a.mono fun _ hv => alive_of_mem (hh hv)

/-! ### Identities -/

/-- Labels are identities in some trees: they are smaller than the next one, and equal labels mean the
same object. -/
structure Identified (next : ObjectId) (known : SharedTree → Prop) : Prop where
  fresh : ∀ {t u}, known t → Part u t → u.label < next
  same : ∀ {t t' u u'}, known t → known t' → Part u t → Part u' t' → u.label = u'.label → u = u'

namespace Identified

variable {next : ObjectId} {known known' : SharedTree → Prop} {t : SharedTree}

theorem mono (d : Identified next known) (hk : ∀ {t}, known' t → ∃ u, known u ∧ Part t u) :
    Identified next known' := by
  refine ⟨fun ht hp => ?_, fun ht ht' hp hp' hl => ?_⟩
  · obtain ⟨u, hu, htu⟩ := hk ht
    exact d.fresh hu (hp.trans htu)
  · obtain ⟨u, hu, htu⟩ := hk ht
    obtain ⟨u', hu', htu'⟩ := hk ht'
    exact d.same hu hu' (hp.trans htu) (hp'.trans htu') hl

theorem make (d : Identified next known) (hl : t.label = next)
    (ht : ∀ {u}, Part u t → u = t ∨ ∃ v, known v ∧ Part u v) :
    Identified (next + 1) fun u => u = t ∨ known u := by
  have split : ∀ {v u}, v = t ∨ known v → Part u v → u = t ∨ ∃ v, known v ∧ Part u v := by
    rintro v u (rfl | hv) hp
    · exact ht hp
    · exact Or.inr ⟨v, hv, hp⟩
  -- the next label is on no object so far
  have old : ∀ {v u}, known v → Part u v → u.label ≠ t.label := fun hv hp h =>
    Nat.ne_of_lt (d.fresh hv hp) (h.trans hl)
  refine ⟨fun hv hp => ?_, fun hv hv' hp hp' h => ?_⟩
  · rcases split hv hp with rfl | ⟨v, hv, hp⟩
    · exact hl ▸ Nat.lt_succ_self _
    · exact Nat.lt_succ_of_lt (d.fresh hv hp)
  · rcases split hv hp with rfl | ⟨w, hw, hpw⟩ <;> rcases split hv' hp' with hu' | ⟨w', hw', hpw'⟩
    · exact hu'.symm
    · exact absurd h.symm (old hw' hpw')
    · exact absurd (hu' ▸ h) (old hw hpw)
    · exact d.same hw hw' hpw hpw' h

end Identified

end Tree

end PackageOutline
