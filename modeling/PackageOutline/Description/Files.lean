import PackageOutline.Description.Basic

/-! # Declared files

The paths on disk that a description declares: those of its files and of its folders, below the
directory of the project. -/

namespace PackageOutline

/-- A path on disk that a description declares. -/
structure DeclaredPath where
  path : Path
  isFolder : Bool
deriving DecidableEq, Repr

namespace Declaration

mutual

/-- The paths of an item and of those below it, where it lies in a directory. -/
def paths (directory : Path) : Declaration → List DeclaredPath
  | ⟨kind, name, items⟩ =>
    let path := if kind.namesPath then directory.join (Utf8.encode name) else directory
    let here := if kind.namesPath then [⟨path, kind = .folder⟩] else []
    here ++ pathsAll path items

/-- The paths of some items and of those below them, where they lie in a directory. -/
def pathsAll (directory : Path) : List Declaration → List DeclaredPath
  | [] => []
  | d :: ds => d.paths directory ++ pathsAll directory ds

end

end Declaration

/-- The paths that a description declares for a project in a directory. -/
def Description.paths (d : Description) (root : Path) : List DeclaredPath :=
  d.groups.flatMap fun g => Declaration.pathsAll root g.items

end PackageOutline
