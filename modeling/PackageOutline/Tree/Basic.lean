import PackageOutline.Entries
import PackageOutline.Path

/-! # File trees

A tree of regular files and ordered directories.  Every node carries a label: `FileTree` has none
to speak of, in a `SharedTree` the label is the identity of the object, so that two places that
show the same object can be told from two equal copies.

* `Tree.plain` forgets the labels; `Tree.same` compares two trees without them.
* `Tree.find?` looks up a path of names, `Tree.setEntry` writes one entry.
* `Tree.WellNamed` are the trees in which every directory has pairwise distinct names. -/

namespace PackageOutline

/-- A regular file or an ordered directory, every node with a label. -/
inductive Tree (α : Type) where
  | file (label : α) (contents : Bytes)
  | dir (label : α) (entries : List (String × Tree α))
deriving Repr

/-- A tree of which only names, order and contents count. -/
abbrev FileTree := Tree Unit

/-- Identity of an object. -/
abbrev ObjectId := Nat

/-- A tree of objects that can be shared: equal labels mean the same object. -/
abbrev SharedTree := Tree ObjectId

namespace Tree

variable {α β : Type}

instance [Inhabited α] : Inhabited (Tree α) := ⟨.dir default []⟩

/-- The label of the topmost node. -/
def label : Tree α → α
  | .file l _ => l
  | .dir l _ => l

/-- Whether the tree is a directory. -/
def isDir : Tree α → Bool
  | .file .. => false
  | .dir .. => true

/-- The contents of a regular file. -/
def contents? : Tree α → Option Bytes
  | .file _ c => some c
  | .dir .. => none

/-- The entries of a directory, none for a file. -/
def entries : Tree α → List (String × Tree α)
  | .file .. => []
  | .dir _ es => es

/-- The names of the entries. -/
def names (t : Tree α) : List String := Entries.keys t.entries

/-- The entry of a name. -/
def entry? (name : String) (t : Tree α) : Option (Tree α) := Entries.get? name t.entries

/-- What stands at a path of names; a path of no names leads nowhere. -/
def find? : List String → Tree α → Option (Tree α)
  | [], _ => none
  | [n], t => t.entry? n
  | n :: m :: ns, t => (t.entry? n).bind (find? (m :: ns))

mutual

/-- Number of regular files. -/
def fileCount : Tree α → Nat
  | .file .. => 1
  | .dir _ es => fileCountAll es

/-- Number of regular files in some entries. -/
def fileCountAll : List (String × Tree α) → Nat
  | [] => 0
  | (_, t) :: es => t.fileCount + fileCountAll es

end

mutual

/-- Changes every label. -/
def map (f : α → β) : Tree α → Tree β
  | .file l c => .file (f l) c
  | .dir l es => .dir (f l) (mapAll f es)

/-- Changes every label in some entries. -/
def mapAll (f : α → β) : List (String × Tree α) → List (String × Tree β)
  | [] => []
  | (n, t) :: es => (n, t.map f) :: mapAll f es

end

/-- The tree without its labels. -/
def plain (t : Tree α) : FileTree := t.map fun _ => ()

mutual

/-- Whether a label is somewhere in the tree. -/
def hasLabel [DecidableEq α] (l : α) : Tree α → Bool
  | .file l' _ => l' = l
  | .dir l' es => l' = l || hasLabelAll l es

/-- Whether a label is somewhere in some entries. -/
def hasLabelAll [DecidableEq α] (l : α) : List (String × Tree α) → Bool
  | [] => false
  | (_, t) :: es => t.hasLabel l || hasLabelAll l es

end

mutual

/-- Whether two trees have the same names, order and contents. -/
def same : Tree α → Tree β → Bool
  | .file _ c, .file _ d => c == d
  | .dir _ es, .dir _ fs => sameAll es fs
  | .file .., .dir .. => false
  | .dir .., .file .. => false

/-- Whether two lists of entries have the same names, order and contents. -/
def sameAll : List (String × Tree α) → List (String × Tree β) → Bool
  | [], [] => true
  | (n, t) :: es, (m, u) :: fs => n == m && t.same u && sameAll es fs
  | [], _ :: _ => false
  | _ :: _, [] => false

end

mutual

/-- Numbers all nodes with fresh identities, from the top down; also gives the next fresh one. -/
def number (next : ObjectId) : Tree α → SharedTree × ObjectId
  | .file _ c => (.file next c, next + 1)
  | .dir _ es =>
    let (es', next') := numberAll (next + 1) es
    (.dir next es', next')

/-- Numbers all nodes of some entries. -/
def numberAll (next : ObjectId) : List (String × Tree α) → List (String × SharedTree) × ObjectId
  | [] => ([], next)
  | (n, t) :: es =>
    let (t', next') := t.number next
    let (es', next'') := numberAll next' es
    ((n, t') :: es', next'')

end

mutual

/-- Whether every directory has pairwise distinct names. -/
def WellNamed : Tree α → Prop
  | .file .. => True
  | .dir _ es => (Entries.keys es).Nodup ∧ WellNamedAll es

/-- Whether every directory in some entries has pairwise distinct names. -/
def WellNamedAll : List (String × Tree α) → Prop
  | [] => True
  | (_, t) :: es => t.WellNamed ∧ WellNamedAll es

end

@[simp] theorem length_mapAll (f : α → β) (es : List (String × Tree α)) :
    (mapAll f es).length = es.length := by
  induction es with
  | nil => rfl
  | cons e es ih => obtain ⟨n, t⟩ := e; simp [mapAll, ih]

@[simp] theorem keys_mapAll (f : α → β) (es : List (String × Tree α)) :
    Entries.keys (mapAll f es) = Entries.keys es := by
  induction es with
  | nil => rfl
  | cons e es ih => obtain ⟨n, t⟩ := e; simp [mapAll, ih]

@[simp] theorem mapAll_append (f : α → β) (es fs : List (String × Tree α)) :
    mapAll f (es ++ fs) = mapAll f es ++ mapAll f fs := by
  induction es with
  | nil => rfl
  | cons e es ih => obtain ⟨n, t⟩ := e; simp [mapAll, ih]

@[simp] theorem fileCount_file (l : α) (c : Bytes) : (Tree.file l c).fileCount = 1 := by
  simp [fileCount]

@[simp] theorem entries_dir (l : α) (es : List (String × Tree α)) : (Tree.dir l es).entries = es :=
  rfl

@[simp] theorem find?_singleton (n : String) (t : Tree α) : t.find? [n] = t.entry? n := rfl

mutual

theorem fileCount_map (f : α → β) : ∀ t : Tree α, (t.map f).fileCount = t.fileCount
  | .file _ _ => by simp [map, fileCount]
  | .dir _ es => by simp only [map, fileCount, fileCountAll_mapAll f es]

theorem fileCountAll_mapAll (f : α → β) :
    ∀ es : List (String × Tree α), fileCountAll (mapAll f es) = fileCountAll es
  | [] => rfl
  | (_, t) :: es => by simp only [mapAll, fileCountAll, fileCount_map f t, fileCountAll_mapAll f es]

end

mutual

theorem same_iff : ∀ (t : Tree α) (u : Tree β), t.same u = true ↔ t.plain = u.plain
  | .file _ c, .file _ d => by simp [same, plain, map]
  | .dir _ es, .dir _ fs => by simp [same, plain, map, sameAll_iff es fs]
  | .file .., .dir .. => by simp [same, plain, map]
  | .dir .., .file .. => by simp [same, plain, map]

theorem sameAll_iff : ∀ (es : List (String × Tree α)) (fs : List (String × Tree β)),
    sameAll es fs = true ↔ mapAll (fun _ => ()) es = mapAll (fun _ => ()) fs
  | [], [] => by simp [sameAll, mapAll]
  | (n, t) :: es, (m, u) :: fs => by
    have ht := same_iff t u
    have hes := sameAll_iff es fs
    simp only [plain] at ht
    simp [sameAll, mapAll, ht, hes, and_assoc]
  | [], _ :: _ => by simp [sameAll, mapAll]
  | _ :: _, [] => by simp [sameAll, mapAll]

end

end Tree

end PackageOutline
