import PackageOutline.Description.Parse
import PackageOutline.Proofs.Exec

/-! # Descriptions that are in order

A declaration is proper when its items may lie where they are declared, have names that items of
their kind may have, and differ in name from their siblings (`Declaration.Proper`,
`Declaration.ProperAll`).  A group counts as a declared item of the package here.  Descriptions that
are read are proper (`Description.proper_of_ofYaml`), and building an outline asks for nothing
else. -/

namespace PackageOutline

namespace Declaration

mutual

/-- A declared item with a name that it may have and proper items below it. -/
def Proper : Declaration → Prop
  | ⟨kind, name, items⟩ => Identifier.isValid name = true ∧
    (kind = .group → Identifier.isGroup name = true) ∧ ProperAll kind items

/-- Declared items that a parent admits, with different names. -/
def ProperAll (parent : Kind) : List Declaration → Prop
  | [] => True
  | d :: ds => parent.admits d.kind = true ∧ (∀ e ∈ ds, e.name ≠ d.name) ∧ d.Proper ∧
    ProperAll parent ds

end

end Declaration

/-- A group as an item that is declared below the package. -/
def GroupDeclaration.asItem (g : GroupDeclaration) : Declaration := ⟨.group, g.name, g.items⟩

/-- The items that are declared below the package. -/
def Description.items (d : Description) : List Declaration := d.groups.map GroupDeclaration.asItem

theorem Identifier.isValid_of_isGroup {name : String} (h : isGroup name = true) :
    isValid name = true := by
  have hmem : name ∈ groups := by simpa [isGroup] using h
  have hall : ∀ s ∈ groups, isValid s = true := by decide
  exact hall name hmem

namespace Description

open Declaration

/-! ### Reading in steps -/

theorem parse_bind_eq_ok {α β : Type} {x : Parse α} {f : α → Parse β} {b : β} :
    (x >>= f).result = .ok b ↔ ∃ a, x.result = .ok a ∧ (f a).result = .ok b := by
  rw [Traced.result_bind]
  exact bind_eq_ok

theorem parse_pure_eq_ok {α : Type} {a b : α} : (pure a : Parse α).result = .ok b ↔ a = b := by
  rw [Traced.result_pure]
  exact pure_eq_ok

theorem ensure_eq_ok {c : Bool} {e : DescriptionError} {u : Unit} :
    (ensure c e).result = .ok u ↔ c = true := by
  cases c <;> simp [ensure]

/-! ### Items -/

theorem kindOfKey?_ne_group {key : String} {kind : Kind} (h : kindOfKey? key = some kind) :
    kind ≠ .group := by
  rintro rfl
  unfold kindOfKey? at h
  split at h
  · cases h
  · split at h
    · cases h
    · split at h
      · cases h
      · split at h <;> cases h

theorem Header.read_eq_ok {fields : List Field} {h h' : Header}
    (hr : Header.read h fields = .ok h') :
    (∀ kind name, h'.declared = some (kind, name) →
      kind ≠ .group ∨ h.declared = some (kind, name)) ∧
      ∀ f, h'.nested = some f → f ∈ fields ∨ h.nested = some f := by
  induction fields generalizing h with
  | nil =>
      obtain rfl := Except.ok.inj hr
      exact ⟨fun _ _ => Or.inr, fun _ => Or.inr⟩
  | cons f fields ih =>
      rw [Header.read] at hr
      split at hr
      · cases hr
      · split at hr
        · obtain ⟨hdeclared, hnested⟩ := ih hr
          refine ⟨hdeclared, fun g hg => ?_⟩
          rcases hnested g hg with hmem | hself
          · exact Or.inl (List.mem_cons_of_mem _ hmem)
          · obtain rfl := Option.some.inj hself
            exact Or.inl List.mem_cons_self
        · split at hr
          · rename_i kind name hkind _ _
            obtain ⟨hdeclared, hnested⟩ := ih hr
            refine ⟨fun kind' name' hd => ?_, fun g hg => ?_⟩
            · rcases hdeclared kind' name' hd with hne | hself
              · exact Or.inl hne
              · obtain ⟨rfl, rfl⟩ := Prod.mk.inj (Option.some.inj hself)
                exact Or.inl (kindOfKey?_ne_group hkind)
            · exact (hnested g hg).imp_left (List.mem_cons_of_mem _)
          · cases hr

theorem itemOf_proper {entry : Yaml} {fields : List Field} {d : Declaration}
    (items : ∀ f ∈ fields, ∀ {kind name ds}, (f.items kind name).result = .ok ds →
      ProperAll kind ds) (hd : (itemOf entry fields).result = .ok (some d)) : d.Proper := by
  unfold itemOf at hd
  split at hd
  · obtain ⟨-, -, hd⟩ := parse_bind_eq_ok.mp hd
    cases parse_pure_eq_ok.mp hd
  · rename_i header hread
    obtain ⟨hdeclared, hnested⟩ := Header.read_eq_ok hread
    split at hd
    · obtain ⟨-, -, hd⟩ := parse_bind_eq_ok.mp hd
      cases parse_pure_eq_ok.mp hd
    · rename_i kind name hdecl
      have hkind : kind ≠ .group := (hdeclared kind name hdecl).resolve_right (by simp)
      obtain ⟨_, hvalid, hd⟩ := parse_bind_eq_ok.mp hd
      rw [ensure_eq_ok] at hvalid
      split at hd
      · rename_i f hf
        obtain ⟨ds, hds, hd⟩ := parse_bind_eq_ok.mp hd
        obtain rfl := Option.some.inj (parse_pure_eq_ok.mp hd)
        have hitems := (hnested f hf).resolve_right (by simp)
        exact ⟨hvalid, fun hg => absurd hg hkind, items f hitems hds⟩
      · obtain ⟨ds, hds, hd⟩ := parse_bind_eq_ok.mp hd
        obtain rfl := Option.some.inj (parse_pure_eq_ok.mp hd)
        obtain rfl := parse_pure_eq_ok.mp hds
        exact ⟨hvalid, fun hg => absurd hg hkind, trivial⟩

mutual

/-- Items that are read are proper. -/
theorem itemsOf_proper : (value : Yaml) → ∀ {kind : Kind} {name : String} {ds : List Declaration},
    (itemsOf value kind name).result = .ok ds → ProperAll kind ds
  | .sequence entries, kind, name, ds, hds => by
    rw [itemsOf] at hds
    exact (entriesOf_proper entries hds).1
  | .scalar s, kind, name, ds, hds => by
    cases s with
    | null =>
        rw [itemsOf] at hds
        obtain rfl := parse_pure_eq_ok.mp hds
        trivial
    | _ =>
        simp [itemsOf] at hds
  | .bad, kind, name, ds, hds => by simp [itemsOf] at hds
  | .tagged _ _, kind, name, ds, hds => by simp [itemsOf] at hds
  | .mapping _, kind, name, ds, hds => by simp [itemsOf] at hds

theorem entriesOf_proper : (entries : List Yaml) → ∀ {kind : Kind} {parent : String}
    {seen : List String} {ds : List Declaration},
    (entriesOf entries kind parent seen).result = .ok ds →
      ProperAll kind ds ∧ ∀ d ∈ ds, d.name ∉ seen
  | [], kind, parent, seen, ds, hds => by
    rw [entriesOf] at hds
    obtain rfl := parse_pure_eq_ok.mp hds
    exact ⟨trivial, fun d hd => by cases hd⟩
  | entry :: entries, kind, parent, seen, ds, hds => by
    rw [entriesOf] at hds
    obtain ⟨found, hfound, hds⟩ := parse_bind_eq_ok.mp hds
    cases found with
    | none => exact entriesOf_proper entries hds
    | some d =>
        obtain ⟨_, hadmits, hds⟩ := parse_bind_eq_ok.mp hds
        obtain ⟨_, hnew, hds⟩ := parse_bind_eq_ok.mp hds
        obtain ⟨ds', hrest, hds⟩ := parse_bind_eq_ok.mp hds
        obtain rfl := parse_pure_eq_ok.mp hds
        rw [ensure_eq_ok] at hadmits hnew
        obtain ⟨hproper, hnames⟩ := entriesOf_proper entries hrest
        refine ⟨⟨hadmits, fun e he => ?_, entryOf_proper entry hfound, hproper⟩, fun e he => ?_⟩
        · exact fun hn => hnames e he (hn ▸ List.mem_cons_self)
        · rcases List.mem_cons.mp he with rfl | he
          · simpa using hnew
          · exact fun hmem => hnames e he (List.mem_cons_of_mem _ hmem)

theorem entryOf_proper : (entry : Yaml) → ∀ {d : Declaration},
    (entryOf entry).result = .ok (some d) → d.Proper
  | .mapping entries, d, hd => by
    rw [entryOf] at hd
    exact itemOf_proper (fieldsOf_proper entries) hd
  | .scalar _, d, hd => by simp [entryOf, Except.bind] at hd
  | .bad, d, hd => by simp [entryOf, Except.bind] at hd
  | .tagged _ _, d, hd => by simp [entryOf, Except.bind] at hd
  | .sequence _, d, hd => by simp [entryOf, Except.bind] at hd

theorem fieldsOf_proper : (entries : List (Yaml × Yaml)) → ∀ f ∈ fieldsOf entries,
    ∀ {kind : Kind} {name : String} {ds : List Declaration},
      (f.items kind name).result = .ok ds → ProperAll kind ds
  | [], f, hf => by simp [fieldsOf] at hf
  | (key, value) :: entries, f, hf => by
    rw [fieldsOf] at hf
    rcases List.mem_cons.mp hf with rfl | hf
    · exact fun hds => itemsOf_proper value hds
    · exact fieldsOf_proper entries f hf

end

/-! ### Groups and the top level -/

theorem groupListOf_proper {entries : List (Yaml × Yaml)} {seen : List String}
    {gs : List GroupDeclaration} (hg : (groupListOf entries seen).result = .ok gs) :
    ProperAll .package (gs.map GroupDeclaration.asItem) ∧ ∀ g ∈ gs, g.name ∉ seen := by
  induction entries generalizing seen gs with
  | nil =>
      obtain rfl := parse_pure_eq_ok.mp hg
      exact ⟨trivial, fun g hg => by cases hg⟩
  | cons entry entries ih =>
      rw [groupListOf] at hg
      obtain ⟨name, -, hg⟩ := parse_bind_eq_ok.mp hg
      obtain ⟨_, hgroup, hg⟩ := parse_bind_eq_ok.mp hg
      obtain ⟨_, hnew, hg⟩ := parse_bind_eq_ok.mp hg
      obtain ⟨items, hitems, hg⟩ := parse_bind_eq_ok.mp hg
      obtain ⟨gs', hrest, hg⟩ := parse_bind_eq_ok.mp hg
      obtain rfl := parse_pure_eq_ok.mp hg
      rw [ensure_eq_ok] at hgroup hnew
      obtain ⟨hproper, hnames⟩ := ih hrest
      refine ⟨⟨rfl, fun e he => ?_, ?_, hproper⟩, fun g hg => ?_⟩
      · obtain ⟨g, hg, rfl⟩ := List.mem_map.mp he
        exact fun hn => hnames g hg (List.mem_cons.mpr (Or.inl hn))
      · exact ⟨Identifier.isValid_of_isGroup hgroup, fun _ => hgroup, itemsOf_proper _ hitems⟩
      · rcases List.mem_cons.mp hg with rfl | hg
        · simpa using hnew
        · exact fun hmem => hnames g hg (List.mem_cons_of_mem _ hmem)

theorem Top.read_proper {entries : List (Yaml × Yaml)} {top top' : Top}
    (ht : ProperAll .package (top.groups.map GroupDeclaration.asItem))
    (hr : (Top.read top entries).result = .ok top') :
    ProperAll .package (top'.groups.map GroupDeclaration.asItem) := by
  induction entries generalizing top with
  | nil =>
      obtain rfl := parse_pure_eq_ok.mp hr
      exact ht
  | cons entry entries ih =>
      rw [Top.read] at hr
      split at hr
      · refine ih ?_ hr
        exact ht
      · obtain ⟨groups, hgroups, hr⟩ := parse_bind_eq_ok.mp hr
        obtain ⟨_, -, hgroups⟩ := parse_bind_eq_ok.mp hgroups
        exact ih (groupListOf_proper hgroups).1 hr
      · obtain ⟨_, -, hr⟩ := parse_bind_eq_ok.mp hr
        exact ih ht hr

/-- Descriptions that are read are proper. -/
theorem proper_of_ofYaml {value : Yaml} {d : Description} (hd : (ofYaml value).result = .ok d) :
    ProperAll .package d.items := by
  unfold ofYaml at hd
  obtain ⟨entries, -, hd⟩ := parse_bind_eq_ok.mp hd
  obtain ⟨top, htop, hd⟩ := parse_bind_eq_ok.mp hd
  obtain ⟨package, -, hd⟩ := parse_bind_eq_ok.mp hd
  obtain rfl := parse_pure_eq_ok.mp hd
  have start : ProperAll .package (({} : Top).groups.map GroupDeclaration.asItem) := trivial
  exact Top.read_proper start htop

end Description

end PackageOutline
