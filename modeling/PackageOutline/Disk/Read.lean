import PackageOutline.Disk.Basic
import PackageOutline.Notice
import PackageOutline.Tree.Basic

/-! # Trees on disk

Reading the tree at a path.  The entries of directories are sorted by name; the metadata of version
control is left out.  A name that is not text is looked for under its text, and not found unless
another entry has that text for a name. -/

namespace PackageOutline

namespace Disk

/-- The names of version control metadata, which never belongs to a project. -/
def ignoredNames : List String := [".git", ".hg", ".svn", "_darcs"]

/-- Whether a name is that of version control metadata. -/
def isIgnored (name : String) : Bool := ignoredNames.contains name

/-- Reads a tree or tells why not. -/
abbrev Reading := Traced DiskError

/-- Puts a name in its place among sorted names. -/
def place (name : String) : List String → List String
  | [] => [name]
  | n :: names => if name ≤ n then name :: n :: names else n :: place name names

/-- Sorts names. -/
def sortNames (names : List String) : List String := names.foldr place []

/-- Reads what stands at the paths of some names in turn. -/
def readNames (p : Path) (readers : List (Bytes × (Path → Reading FileTree))) :
    List String → Reading (List (String × FileTree))
  | [] => return []
  | name :: names => do
    let below := p.join (Utf8.encode name)
    if maxName < (Utf8.encode name).length then throw ⟨.stat, below, .nameTooLong⟩
    match Entries.get? (Utf8.encode name) readers with
    | none => throw ⟨.stat, below, .notFound⟩
    | some read =>
      let t ← read below
      return (name, t) :: (← readNames p readers names)

/-- Reports the names that are passed over. -/
def reportIgnored (p : Path) : List String → Reading Unit
  | [] => return
  | name :: names => do
    if isIgnored name then
      Traced.note ⟨.debug, .disk, s!"Skipping '{name}' in {p.display}"⟩
    reportIgnored p names

/-- Reads a directory, given how its entries are read. -/
def readDir (p : Path) (readers : List (Bytes × (Path → Reading FileTree))) : Reading FileTree := do
  let names := (Entries.keys readers).map Utf8.repair
  reportIgnored p names
  return .dir () (Entries.ofList (← readNames p readers (sortNames (names.filter (!isIgnored ·)))))

mutual

/-- Reads the tree of a node that stands at a path. -/
def readNode : DiskNode → Path → Reading FileTree
  | .file c, p => do
    Traced.ofExcept ((checkPath p).mapError (⟨.stat, p, ·⟩))
    return .file () c
  | .dir es, p => do
    Traced.ofExcept ((checkPath p).mapError (⟨.stat, p, ·⟩))
    readDir p (readersOf es)

/-- How the nodes of some entries are read. -/
def readersOf : List (Bytes × DiskNode) → List (Bytes × (Path → Reading FileTree))
  | [] => []
  | (name, n) :: es => (name, readNode n) :: readersOf es

end

/-- Reads the tree at a path. -/
def readTree (d : Disk) (p : Path) : Reading FileTree := do
  let n ← Traced.ofExcept ((d.stat p).mapError (⟨.stat, p, ·⟩))
  readNode n p

end Disk

end PackageOutline
