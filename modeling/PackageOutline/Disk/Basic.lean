import PackageOutline.Disk.Error
import PackageOutline.Entries
import PackageOutline.Path

/-! # The disk

A disk is a finite tree of regular files and directories, named by sequences of bytes, without links
and without permissions.  Paths start at its top, which is the working directory; the top is its own
parent.

* A *place* is a list of names from the top down.  `Disk.resolve` finds the place of a path, with
  the checks that a system makes on the way.
* `DiskNode.find?` looks a place up, `DiskNode.replace` puts something there. -/

namespace PackageOutline

/-- A regular file or a directory on disk. -/
inductive DiskNode where
  | file (contents : Bytes)
  | dir (entries : List (Bytes × DiskNode))
deriving Repr

namespace DiskNode

instance : Inhabited DiskNode := ⟨.dir []⟩

/-- Whether the node is a directory. -/
def isDir : DiskNode → Bool
  | .file _ => false
  | .dir _ => true

/-- What stands at a place below. -/
def find? : List Bytes → DiskNode → Option DiskNode
  | [], n => some n
  | name :: place, .dir es => (Entries.get? name es).bind (find? place)
  | _ :: _, .file _ => none

/-- The node with something else at a place below, whose directories are there. -/
def replace (new : DiskNode) : List Bytes → DiskNode → DiskNode
  | [], _ => new
  | name :: place, .dir es =>
    .dir (Entries.set name (replace new place ((Entries.get? name es).getD new)) es)
  | _ :: _, .file c => .file c

/-- The node without what stands at a place below. -/
def remove : List Bytes → DiskNode → DiskNode
  | [], n => n
  | [name], .dir es => .dir (Entries.erase name es)
  | name :: next :: place, .dir es =>
    match Entries.get? name es with
    | some n => .dir (Entries.set name (remove (next :: place) n) es)
    | none => .dir es
  | _ :: _, .file c => .file c

theorem find?_replace_self (new n : DiskNode) {place : List Bytes}
    (h : ∀ i < place.length, ((n.find? (place.take i)).map isDir) = some true) :
    (replace new place n).find? place = some new := by
  induction place generalizing n with
  | nil => simp [replace, find?]
  | cons name place ih =>
    cases n with
    | file c => simpa [find?, isDir] using h 0 (by simp)
    | dir es =>
      simp only [replace, find?, Entries.get?_set_self, Option.bind_some]
      cases hg : Entries.get? name es with
      | some m =>
        refine ih m fun i hi => ?_
        simpa [find?, hg] using h (i + 1) (by simpa using hi)
      | none =>
        cases place with
        | nil => simp [replace, find?]
        | cons next place => simpa [find?, hg] using h 1 (by simp)

end DiskNode

/-- A disk, as seen from the working directory. -/
structure Disk where
  /-- The working directory. -/
  top : DiskNode := .dir []
  /-- What the coming changes meet, in order: an error that refuses the change, or nothing. -/
  faults : List (Option IoError) := []
deriving Repr

namespace Disk

/-- The longest name that a system takes, in bytes. -/
def maxName : Nat := 255

/-- The longest path that a system takes, in bytes. -/
def maxPath : Nat := 4095

/-- Whether a system takes a path at all. -/
def checkPath (p : Path) : Except IoError Unit :=
  if p.bytes.contains 0 then .error .nullInName
  else if p.bytes.isEmpty then .error .notFound
  else if maxPath < p.bytes.length then .error .nameTooLong
  else .ok ()

/-- The place that a piece of a path leads to. -/
def step (d : Disk) (place : List Bytes) (piece : Bytes) : Except IoError (List Bytes) :=
  match d.top.find? place with
  | none => .error .notFound
  | some (.file _) => .error .notADirectory
  | some (.dir es) =>
    if piece = [] ∨ piece = Path.dot then .ok place
    else if piece = Path.dotDot then .ok place.dropLast
    else if maxName < piece.length then .error .nameTooLong
    else if Entries.has piece es then .ok (place ++ [piece])
    else .error .notFound

/-- The place that pieces lead to from another. -/
def walk (d : Disk) : List Bytes → (pieces : List Bytes) → Except IoError (List Bytes)
  | place, [] => .ok place
  | place, piece :: pieces => do d.walk (← d.step place piece) pieces

/-- The place of a path. -/
def resolve (d : Disk) (p : Path) : Except IoError (List Bytes) := do
  checkPath p
  d.walk [] p.pieces

/-- What stands at a path. -/
def stat (d : Disk) (p : Path) : Except IoError DiskNode := do
  match d.top.find? (← d.resolve p) with
  | some n => .ok n
  | none => .error .notFound

/-- Whether a directory stands at a path. -/
def isDir (d : Disk) (p : Path) : Bool :=
  match d.stat p with
  | .ok n => n.isDir
  | .error _ => false

/-- The contents of the file at a path. -/
def contentsAt (d : Disk) (p : Path) : Except IoError Bytes := do
  match ← d.stat p with
  | .file c => .ok c
  | .dir _ => .error .isADirectory

end Disk

end PackageOutline
