import PackageOutline.Tree.Basic

/-! # Editing file trees

Two ways to change a tree, both leaving the tree that they start from as it is.

* `Tree.insert` writes a regular file at a path and makes the directories that are missing on the
  way.  What is on the way moves to the end of the entries it stands in: the directories that are
  passed, and also a file in the way, at which the insertion then fails.  So the result holds the tree
  as the insertion leaves it beside the error.  What stands at the path itself is replaced in its
  position.
* `Tree.replaceEntry` writes one entry of a directory, which keeps its position.

`Tree.ofFiles` builds a tree out of paths and contents. -/

namespace PackageOutline

/-- Why a tree cannot be edited. -/
inductive TreeError where
  | belowFile (path : Path)
  | emptyPath
  | notADirectory (name : String)
deriving DecidableEq, Repr

/-- The error in words. -/
def TreeError.message : TreeError → String
  | .belowFile path => s!"Cannot insert '{path.display}' below a regular file"
  | .emptyPath => "Cannot insert a file at an empty path"
  | .notADirectory name => s!"Cannot replace entry '{name}' of a regular file"

namespace Tree

variable {α : Type}

/-- An empty directory. -/
def empty (l : α) : Tree α := .dir l []

/-- Writes a file at a path of names, with fresh labels `mk depth` for the new objects along the
path; also tells whether it arrived, which it does not when a file is in the way. -/
def insertAt (mk : Nat → α) (c : Bytes) (depth : Nat) : List String → Tree α → Tree α × Bool
  | _, .file l b => (.file l b, false)
  | [], .dir l es => (.dir l es, false)
  | [n], .dir _ es => (.dir (mk depth) (Entries.set n (.file (mk (depth + 1)) c) es), true)
  | n :: m :: ns, .dir _ es =>
    let below := (Entries.get? n es).getD (empty (mk (depth + 1)))
    let (below', arrived) := insertAt mk c (depth + 1) (m :: ns) below
    (.dir (mk depth) (Entries.put n below' es), arrived)

/-- Writes a file at a path, and makes the missing directories on the way. -/
def insert (mk : Nat → α) (path : Path) (c : Bytes) (t : Tree α) : Tree α × Except TreeError Unit :=
  match path.names with
  | [] => (t, .error .emptyPath)
  | n :: ns =>
    let (t', arrived) := insertAt mk c 0 (n :: ns) t
    (t', if arrived then .ok () else .error (.belowFile path))

/-- The tree after an insertion that succeeds. -/
def insert? (mk : Nat → α) (path : Path) (c : Bytes) (t : Tree α) : Except TreeError (Tree α) :=
  let (t', result) := t.insert mk path c
  result.map fun _ => t'

/-- The directory with one entry written in place, or at the end when it is new. -/
def replaceEntry (t : Tree α) (l : α) (name : String) (entry : Tree α) :
    Except TreeError (Tree α) :=
  match t with
  | .file .. => .error (.notADirectory name)
  | .dir _ es => .ok (.dir l (Entries.set name entry es))

/-- The directory tree of some files, inserted one after the other. -/
def ofFiles (files : List (Path × Bytes)) : Except TreeError FileTree :=
  files.foldlM (fun t file => t.insert? (fun _ => ()) file.1 file.2) (empty ())

/-- The directory of some entries, in which the last of several entries of one name counts. -/
def ofEntries (l : α) (es : List (String × Tree α)) : Tree α := .dir l (Entries.ofList es)

end Tree

end PackageOutline
