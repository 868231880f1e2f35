import PackageOutline.Binary64

/-! # YAML values

What a YAML document says: scalars, sequences and mappings.  The entries of a mapping have an order
and pairwise different keys.  A value with a tag of its own is not the value without it, and a
scalar that does not have the form that its tag asks for is no value at all.

`Yaml.same` decides equality (`Yaml.same_iff`). -/

namespace PackageOutline

/-- The value of a scalar. -/
inductive Scalar where
  | null
  | boolean (b : Bool)
  | integer (n : Int)
  | real (r : Binary64)
  | text (s : String)
deriving DecidableEq, Repr

/-- A tag: a prefix that its handle stands for and what follows it. -/
structure Tag where
  handle : String
  suffix : String
deriving DecidableEq, Repr

/-- A YAML value. -/
inductive Yaml where
  | scalar (s : Scalar)
  /-- A scalar that is not of the form that its tag asks for. -/
  | bad
  | tagged (tag : Tag) (value : Yaml)
  | sequence (items : List Yaml)
  | mapping (entries : List (Yaml × Yaml))
deriving Repr

namespace Yaml

instance : Inhabited Yaml := ⟨.scalar .null⟩

/-- The value that nothing written stands for. -/
def null : Yaml := .scalar .null

/-- The text of a value that is one. -/
def text? : Yaml → Option String
  | .scalar (.text s) => some s
  | _ => none

/-- The entries of a value that is a mapping. -/
def mapping? : Yaml → Option (List (Yaml × Yaml))
  | .mapping entries => some entries
  | _ => none

mutual

/-- Whether two values are equal. -/
def same : Yaml → Yaml → Bool
  | .scalar s, .scalar t => s = t
  | .bad, .bad => true
  | .tagged s a, .tagged t b => s = t && a.same b
  | .sequence as, .sequence bs => sameItems as bs
  | .mapping es, .mapping fs => sameEntries es fs
  | _, _ => false

/-- Whether two lists of items are equal. -/
def sameItems : List Yaml → List Yaml → Bool
  | [], [] => true
  | a :: as, b :: bs => a.same b && sameItems as bs
  | _, _ => false

/-- Whether two lists of entries are equal. -/
def sameEntries : List (Yaml × Yaml) → List (Yaml × Yaml) → Bool
  | [], [] => true
  | (k, a) :: es, (l, b) :: fs => k.same l && a.same b && sameEntries es fs
  | _, _ => false

end

mutual

theorem same_iff : (a b : Yaml) → (a.same b = true ↔ a = b)
  | .scalar _, b | .bad, b => by cases b <;> simp [same]
  | .tagged _ a, b => by
    cases b <;> simp [same]
    exact fun _ => same_iff a _
  | .sequence as, b => by
    cases b <;> simp [same]
    exact sameItems_iff as _
  | .mapping es, b => by
    cases b <;> simp [same]
    exact sameEntries_iff es _

theorem sameItems_iff : (as bs : List Yaml) → (sameItems as bs = true ↔ as = bs)
  | [], bs => by cases bs <;> simp [sameItems]
  | a :: as, bs => by
    cases bs with
    | nil => simp [sameItems]
    | cons b bs => simp [sameItems, same_iff a b, sameItems_iff as bs]

theorem sameEntries_iff : (es fs : List (Yaml × Yaml)) → (sameEntries es fs = true ↔ es = fs)
  | [], fs => by cases fs <;> simp [sameEntries]
  | (k, a) :: es, fs => by
    cases fs with
    | nil => simp [sameEntries]
    | cons f fs =>
      simp [sameEntries, same_iff k f.1, same_iff a f.2, sameEntries_iff es fs, Prod.ext_iff]

end

instance : DecidableEq Yaml := fun a b => decidable_of_iff _ (same_iff a b)

end Yaml

end PackageOutline
