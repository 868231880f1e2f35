/-! # Kinds and names of outline items

An outline is a tree of items of six kinds.  The package is its root; groups, executables and
file groups only arrange what lies below them (they are *transparent*: what they hold belongs to
the directory of the closest item above that is not transparent), folders and files stand for
something on disk.

* `Kind.admits` says which kind may lie directly below which.
* `Kind.namesPath` are the kinds whose name is a component of a path on disk.
* Every kind but the package is either transparent or names a path
  (`Kind.isTransparent_or_namesPath`).

The name of an item below the root is one component of a path (`Identifier.isValid`): not empty, not
one of the two relative components, and free of the separator.  Four names are reserved for the
groups at the top level (`Identifier.groups`). -/

namespace PackageOutline

/-- The six kinds of items. -/
inductive Kind where
  | group
  | package
  | executable
  | fileGroup
  | folder
  | file
deriving DecidableEq, Repr, Inhabited

namespace Kind

/-- All kinds. -/
def all : List Kind := [.group, .package, .executable, .fileGroup, .folder, .file]

/-- The words for a kind in messages. -/
def text : Kind → String
  | .group => "group"
  | .package => "package"
  | .executable => "executable"
  | .fileGroup => "file group"
  | .folder => "folder"
  | .file => "file"

/-- The constructor-like name of a kind in structured dumps. -/
def label : Kind → String
  | .group => "Group"
  | .package => "Package"
  | .executable => "Executable"
  | .fileGroup => "FileGroup"
  | .folder => "Folder"
  | .file => "File"

/-- Position in the containment order, from the package down to files. -/
def level : Kind → Nat
  | .package => 0
  | .group => 1
  | .executable => 2
  | .fileGroup => 3
  | .folder => 4
  | .file => 5

/-- Whether an item of the first kind may directly hold one of the second: kinds nest in the order
of their levels, and folders also nest in folders. -/
def admits (parent child : Kind) : Bool :=
  match parent, child with
  | .folder, .folder => true
  | _, _ => parent.level < child.level

/-- Whether items of this kind have no counterpart of their own on disk. -/
def isTransparent : Kind → Bool
  | .group | .executable | .fileGroup => true
  | .package | .folder | .file => false

/-- Whether the name of an item of this kind is a component of paths on disk. -/
def namesPath : Kind → Bool
  | .folder | .file => true
  | .group | .package | .executable | .fileGroup => false

/-- Whether items of this kind have contents. -/
def holdsData (k : Kind) : Bool := k == .file

theorem admits_file (k : Kind) : Kind.file.admits k = false := by cases k <;> rfl

theorem admits_package (k : Kind) : k.admits .package = false := by cases k <;> rfl

theorem isTransparent_or_namesPath {k : Kind} (h : k ≠ .package) :
    k.isTransparent = !k.namesPath := by
  cases k <;> simp_all [isTransparent, namesPath]

theorem isTransparent_of_namesPath {k : Kind} (h : k.namesPath = true) :
    k.isTransparent = false := by
  cases k <;> first | rfl | cases h

end Kind

namespace Identifier

/-- Whether a text is one component of a path. -/
def isValid (s : String) : Bool :=
  s != "" && s != "." && s != ".." && !s.toList.contains '/'

/-- The names of the groups at the top level, in their usual order. -/
def groups : List String := ["Package", "Data", "Executables", "Extra sources"]

/-- Whether a text is the name of a group at the top level. -/
def isGroup (s : String) : Bool := groups.contains s

theorem isValid_iff {s : String} :
    isValid s = true ↔ s ≠ "" ∧ s ≠ "." ∧ s ≠ ".." ∧ '/' ∉ s.toList := by
  simp [isValid, and_assoc]

end Identifier

end PackageOutline
