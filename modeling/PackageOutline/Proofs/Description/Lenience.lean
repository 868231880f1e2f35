import Mathlib.Logic.Relation
import PackageOutline.Proofs.Description.Proper
import PackageOutline.Proofs.Entries

/-! # Leniency of descriptions

What reading a description passes over, and nothing else.

* `Yaml.isItem`: the entries of a list of items that are items.
* `Description.Change`: entries that are no items come or go, and keys of mappings trade places.
  The answer stays the same (`result_of_change`).
* `Description.Declares`, `Description.Lists`: the items that a value declares, each with its kind,
  its name and the items below it.  A description that is read has these (`lists_of_itemsOf`). -/

namespace PackageOutline

namespace Yaml

variable {value : Yaml} {es fs : List (Yaml × Yaml)}

theorem text?_eq_some_iff {s : String} : value.text? = some s ↔ value = .scalar (.text s) := by
  cases value with
  | scalar t => cases t <;> simp [text?]
  | _ => simp [text?]

/-- The value of the last entry that has a text as its key. -/
def valueAt (key : String) (es : List (Yaml × Yaml)) : Option Yaml :=
  Entries.get? (.scalar (.text key)) es.reverse

/-- The key of the list of items below an entry. -/
abbrev itemsKey : Yaml := .scalar (.text "items")

/-- The key of the groups at the top. -/
abbrev groupsKey : Yaml := .scalar (.text "groups")

/-- The kind and the name that the keys of an entry declare, `items` left aside: it is one key, it
names a kind, and its value is a text. -/
def declared? : List (Yaml × Yaml) → Option (Kind × String)
  | [(key, value)] => do return (← Description.kindOfKey? (← key.text?), ← value.text?)
  | _ => none

/-- What an entry of a list of items says, if it is an item: it is a mapping that declares a kind
and a name, and has no other key but `items`. -/
def item? : Yaml → Option (Kind × String × Option Yaml)
  | .mapping es => (declared? (Entries.erase itemsKey es)).map fun (kind, name) =>
    (kind, name, valueAt "items" es)
  | _ => none

/-- Whether an entry of a list of items is an item. -/
def isItem (entry : Yaml) : Bool := entry.item?.isSome

theorem valueAt_cons (key : String) (k v : Yaml) (es : List (Yaml × Yaml)) :
    valueAt key ((k, v) :: es) =
      (valueAt key es).or (if k = .scalar (.text key) then some v else none) := by
  unfold valueAt
  rw [List.reverse_cons, Entries.get?_append]
  rfl

theorem mem_of_valueAt {key : String} (h : valueAt key es = some value) :
    (.scalar (.text key), value) ∈ es := List.mem_reverse.mp (Entries.mem_of_get? h)

theorem valueAt_eq_none {key : String} (h : .scalar (.text key) ∉ Entries.keys es) :
    valueAt key es = none := by
  refine Entries.get?_eq_none_iff.mpr fun hmem => h ?_
  rwa [Entries.keys, List.map_reverse, List.mem_reverse] at hmem

theorem valueAt_of_perm (hp : es.Perm fs) (hn : (Entries.keys es).Nodup) (key : String) :
    valueAt key es = valueAt key fs := by
  have hreverse : es.reverse.Perm fs.reverse :=
    (List.reverse_perm es).trans (hp.trans (List.reverse_perm fs).symm)
  refine Entries.get?_of_perm hreverse ?_ _
  exact (((List.reverse_perm fs).trans hp.symm).map Prod.fst).nodup_iff.mpr hn

theorem declared?_of_perm (hp : es.Perm fs) : declared? es = declared? fs := by
  rcases es with _ | ⟨a, _ | ⟨b, es⟩⟩
  · rw [hp.nil_eq]
  · rw [List.singleton_perm.mp hp]
  · rcases fs with _ | ⟨c, _ | ⟨d, fs⟩⟩
    · rfl
    · exact absurd hp.length_eq (by simp)
    · rfl

theorem item?_of_perm (hp : es.Perm fs) (hn : (Entries.keys es).Nodup) :
    (mapping es).item? = (mapping fs).item? := by
  have hothers : (Entries.erase itemsKey es).Perm (Entries.erase itemsKey fs) := hp.filter _
  rw [item?, item?, declared?_of_perm hothers, valueAt_of_perm hp hn]

end Yaml

namespace Description

open Yaml (itemsKey groupsKey valueAt item? isItem)

variable {es fs : List (Yaml × Yaml)} {value : Yaml} {kind : Kind} {name : String}

/-! ### What entries are read as -/

/-- Reading the items below a kind and name: none when there is no such key. -/
def belowOf (below : Option Yaml) (kind : Kind) (name : String) :
    Except DescriptionError (List Declaration) :=
  below.elim (.ok []) fun value => (itemsOf value kind name).result

/-- What an entry that says something is read as. -/
def declare (said : Kind × String × Option Yaml) : Except DescriptionError (Option Declaration) :=
  if Identifier.isValid said.2.1 then
    (belowOf said.2.2 said.1 said.2.1).map fun items => some ⟨said.1, said.2.1, items⟩
  else .error (.invalidName said.2.1)

/-- The field of the last `items` key. -/
def nestedField (es : List (Yaml × Yaml)) : Option Field :=
  (valueAt "items" es).map fun value => ⟨itemsKey, value, itemsOf value⟩

theorem nestedField_cons_items (v : Yaml) (es : List (Yaml × Yaml)) :
    nestedField ((itemsKey, v) :: es) =
      (nestedField es).or (some ⟨itemsKey, v, itemsOf v⟩) := by
  unfold nestedField
  rw [Yaml.valueAt_cons, if_pos rfl]
  cases valueAt "items" es <;> rfl

theorem nestedField_cons {k : Yaml} (hk : k ≠ itemsKey) (v : Yaml)
    (es : List (Yaml × Yaml)) : nestedField ((k, v) :: es) = nestedField es := by
  unfold nestedField
  rw [Yaml.valueAt_cons, if_neg hk, Option.or_none]

theorem erase_cons_of_ne {k : Yaml} (hk : k ≠ itemsKey) (v : Yaml)
    (es : List (Yaml × Yaml)) : Entries.erase itemsKey ((k, v) :: es) =
      (k, v) :: Entries.erase itemsKey es :=
  List.filter_cons_of_pos (decide_eq_true hk)

theorem Header.read_cons_declared {k v : Yaml} (hk : k ≠ itemsKey)
    {d : Kind × String} (hd : Yaml.declared? [(k, v)] = some d) (nested : Option Field)
    (es : List (Yaml × Yaml)) : Header.read ⟨none, nested⟩ (fieldsOf ((k, v) :: es)) =
      Header.read ⟨some d, nested⟩ (fieldsOf es) := by
  unfold Yaml.declared? at hd
  obtain ⟨key, hkey, hd⟩ := Option.bind_eq_some_iff.mp hd
  obtain ⟨kind, hkind, hd⟩ := Option.bind_eq_some_iff.mp hd
  obtain ⟨name, hname, hd⟩ := Option.bind_eq_some_iff.mp hd
  obtain rfl := Option.some.inj hd
  have hitems : ¬ key = "items" := by
    rintro rfl
    exact hk (Yaml.text?_eq_some_iff.mp hkey)
  rw [fieldsOf, Header.read]
  simp only [hkey, if_neg hitems, hkind, hname]

theorem Header.read_cons_undeclared {k v : Yaml} (hk : k ≠ itemsKey) {h : Header}
    (hd : Yaml.declared? [(k, v)] = none ∨ h.declared ≠ none) (es : List (Yaml × Yaml)) :
    ∃ notice, Header.read h (fieldsOf ((k, v) :: es)) = .error notice := by
  rw [fieldsOf, Header.read]
  cases hkey : k.text? with
  | none => exact ⟨_, rfl⟩
  | some key =>
      have hitems : ¬ key = "items" := by
        rintro rfl
        exact hk (Yaml.text?_eq_some_iff.mp hkey)
      simp only [if_neg hitems]
      split
      · rename_i kind name hkind hname hnone
        rcases hd with hd | hd
        · rw [Yaml.declared?, hkey, hname, Option.bind_eq_bind, Option.bind_some, hkind] at hd
          cases hd
        · exact absurd hnone hd
      · exact ⟨_, rfl⟩

theorem Header.read_of_declared (es : List (Yaml × Yaml)) (d : Kind × String)
    (nested : Option Field) :
    (∃ notice, Header.read ⟨some d, nested⟩ (fieldsOf es) = .error notice) ∧
        Entries.erase itemsKey es ≠ [] ∨
      Header.read ⟨some d, nested⟩ (fieldsOf es) = .ok ⟨some d, (nestedField es).or nested⟩ ∧
        Entries.erase itemsKey es = [] := by
  induction es generalizing nested with
  | nil => exact Or.inr ⟨rfl, rfl⟩
  | cons e es ih =>
      obtain ⟨k, v⟩ := e
      by_cases hk : k = itemsKey
      · subst hk
        rw [nestedField_cons_items, Option.or_assoc, Option.some_or]
        exact ih _
      · -- whatever the key is, it is one too many
        refine Or.inl ⟨read_cons_undeclared hk (Or.inr (Option.some_ne_none d)) es, ?_⟩
        rw [erase_cons_of_ne hk]
        exact List.cons_ne_nil _ _

/-- Reading the keys of an entry finds the kind and the name that they declare. -/
theorem Header.read_eq (es : List (Yaml × Yaml)) (nested : Option Field) :
    (∃ notice, Header.read ⟨none, nested⟩ (fieldsOf es) = .error notice) ∧
        Yaml.declared? (Entries.erase itemsKey es) = none ∨
      Header.read ⟨none, nested⟩ (fieldsOf es) =
        .ok ⟨Yaml.declared? (Entries.erase itemsKey es),
          (nestedField es).or nested⟩ := by
  induction es generalizing nested with
  | nil => exact Or.inr rfl
  | cons e es ih =>
      obtain ⟨k, v⟩ := e
      by_cases hk : k = itemsKey
      · subst hk
        rw [nestedField_cons_items, Option.or_assoc, Option.some_or]
        exact ih _
      · rw [erase_cons_of_ne hk]
        cases hd : Yaml.declared? [(k, v)] with
        | none =>
            refine Or.inl ⟨read_cons_undeclared hk (Or.inl hd) es, ?_⟩
            cases Entries.erase itemsKey es with
            | nil => exact hd
            | cons _ _ => rfl
        | some d =>
            rw [read_cons_declared hk hd, nestedField_cons hk]
            rcases read_of_declared es d nested with ⟨herror, hmore⟩ | ⟨hread, hnone⟩
            · obtain ⟨e, more, hmore⟩ := List.exists_cons_of_ne_nil hmore
              exact Or.inl ⟨herror, by rw [hmore]; rfl⟩
            · exact Or.inr (by rw [hread, hnone, hd])

/-- An entry that is an item is read as what it says; others are passed over. -/
theorem result_entryOf (entry : Yaml) :
    (entryOf entry).result = entry.item?.elim (.ok none) declare := by
  cases entry with
  | mapping es =>
      rw [entryOf, itemOf]
      rcases Header.read_eq es none with ⟨⟨notice, hread⟩, hnone⟩ | hread
      · simp only [hread, item?, hnone, Option.map_none, Option.elim_none]
        rfl
      · rw [item?]
        rw [hread, Option.or_none]
        cases Yaml.declared? (Entries.erase itemsKey es) with
        | none => rfl
        | some d =>
            obtain ⟨kind, name⟩ := d
            simp only [Option.map_some, Option.elim_some, declare, belowOf, nestedField]
            cases hvalid : Identifier.isValid name
            · rfl
            · cases valueAt "items" es with
              | none => rfl
              | some value =>
                  simp only [ensure, Traced.result_bind, if_true, Option.map_some, Option.elim_some]
                  cases (itemsOf value kind name).result <;> rfl
  | _ => rfl

/-- A list of items is read entry by entry: what the entry declares may lie here, and is new. -/
def place (kind : Kind) (parent : String) (seen : List String) (d : Declaration)
    (rest : Except DescriptionError (List Declaration)) :
    Except DescriptionError (List Declaration) :=
  if kind.admits d.kind then
    if seen.contains d.name then .error (.duplicate d.name parent) else rest.map (d :: ·)
  else .error (.misplaced d.kind d.name parent)

theorem result_entriesOf_cons (entry : Yaml) (entries : List Yaml) (kind : Kind) (parent : String)
    (seen : List String) : (entriesOf (entry :: entries) kind parent seen).result =
      (entryOf entry).result.bind fun found =>
        found.elim (entriesOf entries kind parent seen).result fun d =>
          place kind parent seen d (entriesOf entries kind parent (d.name :: seen)).result := by
  rw [entriesOf, Traced.result_bind]
  congr 1
  funext found
  cases found with
  | none => rfl
  | some d =>
      simp only [Traced.result_bind, ensure, place, Option.elim_some]
      cases kind.admits d.kind
      · rfl
      · cases hseen : seen.contains d.name
        · cases (entriesOf entries kind parent (d.name :: seen)).result <;> rfl
        · rfl

/-! ### Changes that are not noticed -/

/-- A change below a list of items: an entry that is no item comes in, the keys of a mapping trade
places, or there is such a change in the list below an entry. -/
inductive ItemsChange : Yaml → Yaml → Prop
  | insert (before after : List Yaml) {entry : Yaml} : isItem entry = false →
      ItemsChange (.sequence (before ++ after)) (.sequence (before ++ entry :: after))
  | permute (before after : List Yaml) {es fs : List (Yaml × Yaml)} : (Entries.keys es).Nodup →
      es.Perm fs → ItemsChange (.sequence (before ++ .mapping es :: after))
        (.sequence (before ++ .mapping fs :: after))
  | nested (before after : List Yaml) (front back : List (Yaml × Yaml)) {v w : Yaml} :
      ItemsChange v w →
      ItemsChange (.sequence (before ++ .mapping (front ++ (itemsKey, v) :: back) :: after))
        (.sequence (before ++ .mapping (front ++ (itemsKey, w) :: back) :: after))

/-- A change of a description: the keys at the top trade places, or there is a change below the list
of items of a group. -/
inductive Change : Yaml → Yaml → Prop
  | permute {es fs : List (Yaml × Yaml)} : (Entries.keys es).Nodup → es.Perm fs →
      Change (.mapping es) (.mapping fs)
  | items (front back groups more : List (Yaml × Yaml)) (key : Yaml) {v w : Yaml} :
      ItemsChange v w → Change
        (.mapping (front ++ (groupsKey, .mapping (groups ++ (key, v) :: more)) :: back))
        (.mapping (front ++ (groupsKey, .mapping (groups ++ (key, w) :: more)) :: back))

theorem result_entriesOf_congr {entry entry' : Yaml}
    (h : (entryOf entry).result = (entryOf entry').result) (before after : List Yaml)
    (kind : Kind) (parent : String) (seen : List String) :
    (entriesOf (before ++ entry :: after) kind parent seen).result =
      (entriesOf (before ++ entry' :: after) kind parent seen).result := by
  induction before generalizing seen with
  | nil => rw [List.nil_append, List.nil_append, result_entriesOf_cons, result_entriesOf_cons, h]
  | cons e before ih =>
      rw [List.cons_append, List.cons_append, result_entriesOf_cons, result_entriesOf_cons]
      simp only [ih]

theorem result_entriesOf_insert {entry : Yaml} (h : isItem entry = false)
    (before after : List Yaml) (kind : Kind) (parent : String) (seen : List String) :
    (entriesOf (before ++ after) kind parent seen).result =
      (entriesOf (before ++ entry :: after) kind parent seen).result := by
  have hnone : entry.item? = none := Option.not_isSome_iff_eq_none.mp (by simpa [isItem] using h)
  induction before generalizing seen with
  | nil =>
      rw [List.nil_append, List.nil_append, result_entriesOf_cons, result_entryOf, hnone]
      rfl
  | cons e before ih =>
      rw [List.cons_append, List.cons_append, result_entriesOf_cons, result_entriesOf_cons]
      simp only [ih]

theorem result_itemsOf_sequence (entries : List Yaml) (kind : Kind) (name : String) :
    (itemsOf (.sequence entries) kind name).result = (entriesOf entries kind name []).result := by
  rw [itemsOf]

theorem valueAt_items (front back : List (Yaml × Yaml)) (v : Yaml) :
    valueAt "items" (front ++ (itemsKey, v) :: back) =
      (valueAt "items" back).or (some v) := by
  induction front with
  | nil => rw [List.nil_append, Yaml.valueAt_cons, if_pos rfl]
  | cons e front ih =>
      obtain ⟨k, x⟩ := e
      rw [List.cons_append, Yaml.valueAt_cons, ih]
      cases valueAt "items" back <;> rfl

theorem result_entryOf_congr {v w : Yaml} (front back : List (Yaml × Yaml))
    (h : ∀ kind name, (itemsOf v kind name).result = (itemsOf w kind name).result) :
    (entryOf (.mapping (front ++ (itemsKey, v) :: back))).result =
      (entryOf (.mapping (front ++ (itemsKey, w) :: back))).result := by
  have hothers : ∀ x, Entries.erase itemsKey
      (front ++ (itemsKey, x) :: back) =
      Entries.erase itemsKey (front ++ back) := by
    intro x
    rw [Entries.erase_append, Entries.erase_append]
    simp [Entries.erase]
  rw [result_entryOf, result_entryOf, item?, item?, hothers, hothers, valueAt_items, valueAt_items]
  cases Yaml.declared? (Entries.erase itemsKey (front ++ back)) with
  | none => rfl
  | some d =>
      cases valueAt "items" back with
      | some x => rfl
      | none => simp only [Option.map_some, Option.elim_some, declare, belowOf, Option.none_or, h]

/-- Changes below a list of items are not noticed. -/
theorem result_itemsOf_of_change {v w : Yaml} (h : ItemsChange v w) (kind : Kind) (name : String) :
    (itemsOf v kind name).result = (itemsOf w kind name).result := by
  induction h generalizing kind name with
  | insert before after hentry =>
      rw [result_itemsOf_sequence, result_itemsOf_sequence]
      exact result_entriesOf_insert hentry before after kind name []
  | permute before after hn hp =>
      rw [result_itemsOf_sequence, result_itemsOf_sequence]
      refine result_entriesOf_congr ?_ before after kind name []
      rw [result_entryOf, result_entryOf, Yaml.item?_of_perm hp hn]
  | nested before after front back _ ih =>
      rw [result_itemsOf_sequence, result_itemsOf_sequence]
      exact result_entriesOf_congr (result_entryOf_congr front back ih) before after kind name []

/-! ### The top level -/

theorem result_groupListOf_congr {v w : Yaml} (groups more : List (Yaml × Yaml)) (key : Yaml)
    (h : ∀ kind name, (itemsOf v kind name).result = (itemsOf w kind name).result)
    (seen : List String) : (groupListOf (groups ++ (key, v) :: more) seen).result =
      (groupListOf (groups ++ (key, w) :: more) seen).result := by
  induction groups generalizing seen with
  | nil => simp only [List.nil_append, groupListOf, Traced.result_bind, h]
  | cons g groups ih =>
      obtain ⟨k, x⟩ := g
      simp only [List.cons_append, groupListOf, Traced.result_bind, ih]

theorem Top.result_read_congr {v w : Yaml} (front back : List (Yaml × Yaml))
    (h : (groupsOf v).result = (groupsOf w).result) (top : Top) :
    (Top.read top (front ++ (groupsKey, v) :: back)).result =
      (Top.read top (front ++ (groupsKey, w) :: back)).result := by
  induction front generalizing top with
  | nil =>
      simp only [List.nil_append, Top.read, Yaml.text?, Traced.result_bind, h]
  | cons e front ih =>
      obtain ⟨k, x⟩ := e
      simp only [List.cons_append, Top.read]
      split
      · exact ih _
      · simp only [Traced.result_bind, ih]
      · simp only [Traced.result_bind, ih]

theorem package_ne_groups : .scalar (.text "package") ≠ groupsKey := by decide

/-- Where keys are distinct, reading the top level comes to looking two keys up. -/
theorem Top.result_read {es : List (Yaml × Yaml)} (hn : (Entries.keys es).Nodup) (top : Top) :
    (Top.read top es).result =
      ((valueAt "groups" es).elim (.ok top.groups) fun value => (groupsOf value).result).map
        fun groups => ⟨(valueAt "package" es).elim top.package Yaml.text?, groups⟩ := by
  induction es generalizing top with
  | nil => rfl
  | cons e es ih =>
      obtain ⟨k, v⟩ := e
      obtain ⟨hnew, hrest⟩ := List.nodup_cons.mp hn
      rw [Top.read, Yaml.valueAt_cons, Yaml.valueAt_cons]
      split
      · rename_i hkey
        obtain rfl := Yaml.text?_eq_some_iff.mp hkey
        rw [ih hrest, Yaml.valueAt_eq_none hnew, if_neg package_ne_groups, if_pos rfl,
          Option.or_none]
        rfl
      · rename_i hkey
        obtain rfl := Yaml.text?_eq_some_iff.mp hkey
        rw [Traced.result_bind, Yaml.valueAt_eq_none hnew, if_neg package_ne_groups.symm,
          if_pos rfl, Option.or_none]
        simp only [ih hrest, Yaml.valueAt_eq_none hnew, Option.none_or, Option.elim_some]
        cases (groupsOf v).result <;> rfl
      · rename_i hpackage hgroups
        have hp : k ≠ .scalar (.text "package") := fun h => hpackage (h ▸ rfl)
        have hg : k ≠ groupsKey := fun h => hgroups (h ▸ rfl)
        rw [Traced.result_bind, if_neg hp, if_neg hg, Option.or_none, Option.or_none, ← ih hrest]
        rfl

theorem Top.of_result_read {es : List (Yaml × Yaml)} {top top' : Top}
    (h : (Top.read top es).result = .ok top') :
    top'.package = (valueAt "package" es).elim top.package Yaml.text? ∧
      (valueAt "groups" es).elim (.ok top.groups) (fun value => (groupsOf value).result) =
        .ok top'.groups := by
  induction es generalizing top with
  | nil =>
      obtain rfl := parse_pure_eq_ok.mp h
      exact ⟨rfl, rfl⟩
  | cons e es ih =>
      obtain ⟨k, v⟩ := e
      rw [Top.read] at h
      rw [Yaml.valueAt_cons, Yaml.valueAt_cons]
      split at h
      · rename_i hkey
        obtain rfl := Yaml.text?_eq_some_iff.mp hkey
        obtain ⟨hpackage, hgroups⟩ := ih h
        rw [if_neg package_ne_groups, if_pos rfl, Option.or_none]
        refine ⟨?_, hgroups⟩
        cases hp : valueAt "package" es <;> simpa [hp] using hpackage
      · rename_i hkey
        obtain rfl := Yaml.text?_eq_some_iff.mp hkey
        obtain ⟨groups, hv, h⟩ := parse_bind_eq_ok.mp h
        obtain ⟨hpackage, hgroups⟩ := ih h
        rw [if_neg package_ne_groups.symm, if_pos rfl, Option.or_none]
        refine ⟨hpackage, ?_⟩
        cases hg : valueAt "groups" es <;> simpa [hg, hv] using hgroups
      · rename_i hpackage hgroups
        have hp : k ≠ .scalar (.text "package") := fun h => hpackage (h ▸ rfl)
        have hg : k ≠ groupsKey := fun h => hgroups (h ▸ rfl)
        obtain ⟨_, -, h⟩ := parse_bind_eq_ok.mp h
        rw [if_neg hp, if_neg hg, Option.or_none, Option.or_none]
        exact ih h

theorem result_ofYaml_congr (h : (Top.read {} es).result = (Top.read {} fs).result) :
    (ofYaml (.mapping es)).result = (ofYaml (.mapping fs)).result := by
  simp only [ofYaml, expect, Yaml.mapping?, Traced.result_bind, Traced.result_pure, Except.bind, h]

/-- Changes of a description are not noticed. -/
theorem result_of_change {v w : Yaml} (h : Change v w) : (ofYaml v).result = (ofYaml w).result := by
  cases h with
  | permute hn hp =>
      have hn' := (hp.map Prod.fst).nodup_iff.mp hn
      refine result_ofYaml_congr ?_
      rw [Top.result_read hn, Top.result_read hn', Yaml.valueAt_of_perm hp hn,
        Yaml.valueAt_of_perm hp hn]
  | items front back groups more key hitems =>
      refine result_ofYaml_congr (Top.result_read_congr front back ?_ {})
      simp only [groupsOf, expect, Yaml.mapping?, Traced.result_bind, Traced.result_pure]
      exact result_groupListOf_congr groups more key (result_itemsOf_of_change hitems) []

/-! ### What is declared -/

mutual

/-- The items that a value lists: none, or those that the items among its entries declare. -/
inductive Lists : Yaml → List Declaration → Prop
  | none : Lists .null []
  | sequence {entries : List Yaml} {ds : List Declaration} :
      DeclaresAll (entries.filter isItem) ds → Lists (.sequence entries) ds

/-- What some entries declare, one item each. -/
inductive DeclaresAll : List Yaml → List Declaration → Prop
  | nil : DeclaresAll [] []
  | cons {entry : Yaml} {entries : List Yaml} {d : Declaration} {ds : List Declaration} :
      Declares entry d → DeclaresAll entries ds → DeclaresAll (entry :: entries) (d :: ds)

/-- The item that an entry declares: its kind, its name and the items that are listed below it. -/
inductive Declares : Yaml → Declaration → Prop
  | plain {entry : Yaml} {kind : Kind} {name : String} :
      entry.item? = some (kind, name, Option.none) → Declares entry ⟨kind, name, []⟩
  | nested {entry value : Yaml} {kind : Kind} {name : String} {items : List Declaration} :
      entry.item? = some (kind, name, some value) → Lists value items →
      Declares entry ⟨kind, name, items⟩

end

theorem isItem_of_result {entry : Yaml} {found : Option Declaration}
    (h : (entryOf entry).result = .ok found) : isItem entry = found.isSome := by
  rw [result_entryOf] at h
  rw [isItem]
  cases hitem : entry.item? with
  | none =>
      rw [hitem] at h
      rw [← Except.ok.inj h]
      rfl
  | some said =>
      rw [hitem, Option.elim_some, declare] at h
      split at h
      · cases hitems : belowOf said.2.2 said.1 said.2.1 with
        | error e =>
            rw [hitems] at h
            cases h
        | ok items =>
            rw [hitems] at h
            rw [← Except.ok.inj h]
            rfl
      · cases h

theorem declares_of_result {entry : Yaml} {d : Declaration}
    (hlists : ∀ {kind name value}, entry.item? = some (kind, name, some value) →
      ∀ {ds}, (itemsOf value kind name).result = .ok ds → Lists value ds)
    (hd : (entryOf entry).result = .ok (some d)) : Declares entry d := by
  rw [result_entryOf] at hd
  cases hitem : entry.item? with
  | none =>
      rw [hitem] at hd
      cases hd
  | some said =>
      obtain ⟨kind, name, below⟩ := said
      rw [hitem, Option.elim_some] at hd
      unfold declare at hd
      split at hd
      · cases below with
        | none =>
            obtain rfl := Option.some.inj (Except.ok.inj hd)
            exact .plain hitem
        | some value =>
            cases hitems : (itemsOf value kind name).result with
            | error e =>
                rw [belowOf, Option.elim_some, hitems] at hd
                cases hd
            | ok items =>
                rw [belowOf, Option.elim_some, hitems] at hd
                obtain rfl := Option.some.inj (Except.ok.inj hd)
                exact .nested hitem (hlists hitem hitems)
      · cases hd

mutual

/-- Items that are read are those that the value lists. -/
theorem lists_of_itemsOf : (value : Yaml) → ∀ {kind : Kind} {name : String} {ds : List Declaration},
    (itemsOf value kind name).result = .ok ds → Lists value ds
  | .sequence entries, kind, name, ds, hds => by
    rw [itemsOf] at hds
    exact .sequence (declaresAll_of_entriesOf entries hds)
  | .scalar s, kind, name, ds, hds => by
    cases s with
    | null =>
        rw [itemsOf] at hds
        obtain rfl := parse_pure_eq_ok.mp hds
        exact .none
    | _ => simp [itemsOf] at hds
  | .bad, kind, name, ds, hds => by simp [itemsOf] at hds
  | .tagged _ _, kind, name, ds, hds => by simp [itemsOf] at hds
  | .mapping _, kind, name, ds, hds => by simp [itemsOf] at hds

theorem declaresAll_of_entriesOf : (entries : List Yaml) → ∀ {kind : Kind} {parent : String}
    {seen : List String} {ds : List Declaration},
    (entriesOf entries kind parent seen).result = .ok ds → DeclaresAll (entries.filter isItem) ds
  | [], kind, parent, seen, ds, hds => by
    rw [entriesOf] at hds
    obtain rfl := parse_pure_eq_ok.mp hds
    exact .nil
  | entry :: entries, kind, parent, seen, ds, hds => by
    rw [entriesOf] at hds
    obtain ⟨found, hfound, hds⟩ := parse_bind_eq_ok.mp hds
    cases found with
    | none =>
        have hskip := isItem_of_result hfound
        rw [List.filter_cons_of_neg (by rw [hskip]; exact Bool.false_ne_true)]
        exact declaresAll_of_entriesOf entries hds
    | some d =>
        obtain ⟨_, -, hds⟩ := parse_bind_eq_ok.mp hds
        obtain ⟨_, -, hds⟩ := parse_bind_eq_ok.mp hds
        obtain ⟨ds', hrest, hds⟩ := parse_bind_eq_ok.mp hds
        obtain rfl := parse_pure_eq_ok.mp hds
        rw [List.filter_cons_of_pos (isItem_of_result hfound)]
        exact .cons (declares_of_entryOf entry hfound) (declaresAll_of_entriesOf entries hrest)

theorem declares_of_entryOf : (entry : Yaml) → ∀ {d : Declaration},
    (entryOf entry).result = .ok (some d) → Declares entry d
  | .mapping es, d, hd => by
    refine declares_of_result (fun {kind name value} hitem => ?_) hd
    rw [item?] at hitem
    obtain ⟨said, -, hsaid⟩ := Option.map_eq_some_iff.mp hitem
    have hvalue : valueAt "items" es = some value := (Prod.mk.inj (Prod.mk.inj hsaid).2).2
    exact fun {_} hds => lists_of_fields es _ (Yaml.mem_of_valueAt hvalue) hds
  | .scalar _, d, hd => by simp [entryOf, Except.bind] at hd
  | .bad, d, hd => by simp [entryOf, Except.bind] at hd
  | .tagged _ _, d, hd => by simp [entryOf, Except.bind] at hd
  | .sequence _, d, hd => by simp [entryOf, Except.bind] at hd

theorem lists_of_fields : (es : List (Yaml × Yaml)) → ∀ e ∈ es,
    ∀ {kind : Kind} {name : String} {ds : List Declaration},
      (itemsOf e.2 kind name).result = .ok ds → Lists e.2 ds
  | [], e, he => by cases he
  | (key, value) :: es, e, he => by
    rcases List.mem_cons.mp he with rfl | he
    · exact fun hds => lists_of_itemsOf value hds
    · exact lists_of_fields es e he

end

theorem expect_eq_ok {α : Type} {a : Option α} {e : DescriptionError} {x : α} :
    (expect a e).result = .ok x ↔ a = some x := by
  cases a <;> simp [expect]

theorem lists_of_groupListOf {groups : List (Yaml × Yaml)} {seen : List String}
    {gs : List GroupDeclaration} (h : (groupListOf groups seen).result = .ok gs) :
    List.Forall₂ (fun (e : Yaml × Yaml) g => e.1 = .scalar (.text g.name) ∧ Lists e.2 g.items)
      groups gs := by
  induction groups generalizing seen gs with
  | nil =>
      obtain rfl := parse_pure_eq_ok.mp h
      exact .nil
  | cons e groups ih =>
      obtain ⟨key, value⟩ := e
      rw [groupListOf] at h
      obtain ⟨name, hname, h⟩ := parse_bind_eq_ok.mp h
      obtain ⟨_, -, h⟩ := parse_bind_eq_ok.mp h
      obtain ⟨_, -, h⟩ := parse_bind_eq_ok.mp h
      obtain ⟨items, hitems, h⟩ := parse_bind_eq_ok.mp h
      obtain ⟨gs', hrest, h⟩ := parse_bind_eq_ok.mp h
      obtain rfl := parse_pure_eq_ok.mp h
      exact .cons ⟨Yaml.text?_eq_some_iff.mp (expect_eq_ok.mp hname), lists_of_itemsOf value hitems⟩
        (ih hrest)

/-- A description is read the same after any changes by which entries of lists of items that are no
items come or go, and keys of items or at the top trade places.  When it is read, it has the package
that is named, and the groups in order, each with the items that are listed, one for each entry that
is an item. -/
theorem lenient_only_in_entries :
    (∀ v w, Relation.EqvGen Change v w → (ofYaml v).result = (ofYaml w).result) ∧
    ∀ v d, (ofYaml v).result = .ok d → ∃ top, v = .mapping top ∧
      valueAt "package" top = some (.scalar (.text d.package)) ∧
      (valueAt "groups" top = none ∧ d.groups = [] ∨
        ∃ groups, valueAt "groups" top = some (.mapping groups) ∧
          List.Forall₂ (fun e g => e.1 = .scalar (.text g.name) ∧ Lists e.2 g.items)
            groups d.groups) := by
  refine ⟨fun v w h => ?_, fun v d h => ?_⟩
  · induction h with
    | rel _ _ h => exact result_of_change h
    | refl _ => rfl
    | symm _ _ _ ih => exact ih.symm
    | trans _ _ _ _ _ ih ih' => exact ih.trans ih'
  · unfold ofYaml at h
    obtain ⟨top, htop, h⟩ := parse_bind_eq_ok.mp h
    obtain ⟨said, hsaid, h⟩ := parse_bind_eq_ok.mp h
    obtain ⟨package, hpackage, h⟩ := parse_bind_eq_ok.mp h
    obtain rfl := parse_pure_eq_ok.mp h
    rw [expect_eq_ok] at htop hpackage
    have hv : v = .mapping top := by
      cases v <;> simp_all [Yaml.mapping?]
    obtain ⟨hp, hg⟩ := Top.of_result_read hsaid
    refine ⟨top, hv, ?_, ?_⟩
    · have hname := (Option.filter_eq_some_iff.mp hpackage).1
      rw [hp] at hname
      obtain ⟨value, hvalue, htext⟩ : ∃ value, valueAt "package" top = some value ∧
          value.text? = some package := by
        cases hat : valueAt "package" top <;> simp_all
      rw [hvalue, Yaml.text?_eq_some_iff.mp htext]
    · cases hat : valueAt "groups" top with
      | none =>
          rw [hat] at hg
          exact Or.inl ⟨rfl, (Except.ok.inj hg).symm⟩
      | some value =>
          rw [hat, Option.elim_some] at hg
          obtain ⟨groups, hgroups, hlist⟩ := parse_bind_eq_ok.mp hg
          rw [expect_eq_ok] at hgroups
          have hvalue : value = .mapping groups := by
            cases value <;> simp_all [Yaml.mapping?]
          exact Or.inr ⟨groups, by rw [hvalue], lists_of_groupListOf hlist⟩

/-- A text and a number among the entries, the keys of a folder and those at the top the other way
round. -/
theorem lenient_only_in_entries_of_folder :
    let text (s : String) : Yaml := .scalar (.text s)
    let file : Yaml := .mapping [(text "file", text "a")]
    let v : Yaml := .mapping [(text "package", text "P"), (text "groups", .mapping [(text "Data",
      .sequence [text "b",
        .mapping [(text "items", .sequence [file]), (text "folder", text "d")]])])]
    let w : Yaml := .mapping [(text "groups", .mapping [(text "Data", .sequence [
      .mapping [(text "folder", text "d"),
        (text "items", .sequence [.scalar (.integer 4), file])]])]),
      (text "package", text "P")]
    (ofYaml v).result = (ofYaml w).result ∧ ∃ d, (ofYaml v).result = .ok d ∧
      List.Forall₂ (fun (e : Yaml × Yaml) g => e.1 = .scalar (.text g.name) ∧ Lists e.2 g.items)
        [(text "Data", .sequence [text "b",
          .mapping [(text "items", .sequence [file]), (text "folder", text "d")]])] d.groups := by
  intro text file v w
  let nested (items : List Yaml) : List (Yaml × Yaml) :=
    [(text "folder", text "d"), (text "items", .sequence items)]
  let top (entries : List Yaml) : Yaml :=
    .mapping [(text "package", text "P"),
      (text "groups", .mapping [(text "Data", .sequence entries)])]
  have below : ∀ {entries entries' : List Yaml},
      ItemsChange (.sequence entries) (.sequence entries') →
        Relation.EqvGen Change (top entries) (top entries') := fun h =>
    .rel _ _ (.items [(text "package", text "P")] [] [] [] (text "Data") h)
  have hchange : Relation.EqvGen Change v w :=
    ((below (.insert [] [.mapping (nested [file]).reverse] rfl)).symm _ _).trans _ _ _
      ((below (.permute [] [] (by decide) (List.reverse_perm _))).trans _ _ _
      ((below (.nested [] [] [(text "folder", text "d")] [] (.insert [] [file] rfl))).trans _ _ _
      (.rel _ _ (.permute (by decide) (List.Perm.swap _ _ _)))))
  obtain ⟨hsame, hlists⟩ := lenient_only_in_entries
  have hd : (ofYaml v).result = .ok ⟨"P", [⟨"Data", [⟨.folder, "d", [⟨.file, "a", []⟩]⟩]⟩]⟩ := rfl
  refine ⟨hsame v w hchange, _, hd, ?_⟩
  obtain ⟨entries, htop, -, hgroups⟩ := hlists v _ hd
  obtain rfl := (Yaml.mapping.inj htop).symm
  rcases hgroups with ⟨hnone, -⟩ | ⟨groups, hat, hall⟩
  · cases hnone
  · obtain rfl := (Yaml.mapping.inj (Option.some.inj hat)).symm
    exact hall

end Description

end PackageOutline
