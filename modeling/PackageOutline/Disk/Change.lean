import PackageOutline.Disk.Basic

/-! # Changes of a disk

A change happens as a whole or not at all.  Writing a file creates or replaces it in a directory
that is there; making a directory needs the one above it and no namesake.  `Disk.makeDirs` also
makes the directories above.

Every change first meets the next of the disk's faults, if there are any. -/

namespace PackageOutline

namespace Disk

/-- A change of a disk, which may fail. -/
abbrev Change := ExceptT IoError (StateM Disk)

/-- Where a change is to happen. -/
structure Target where
  /-- The place of the directory. -/
  parent : List Bytes
  /-- The name in it; none when the path ends in a step. -/
  name : Option Bytes
  /-- Whether a slash stands behind the name. -/
  slash : Bool

/-- The target of a path: its last piece that is not empty counts. -/
def target (d : Disk) (p : Path) : Except IoError Target := do
  checkPath p
  let pieces := p.pieces.reverse
  match pieces.dropWhile (· = []) with
  | [] => return { parent := [], name := none, slash := true }
  | last :: above =>
    let parent ← d.walk [] above.reverse
    match d.top.find? parent with
    | some (.dir _) =>
      let slash := pieces.head? = some []
      if !Path.isName last then return { parent, name := none, slash }
      if maxName < last.length then throw .nameTooLong
      return { parent, name := some last, slash }
    | _ => throw .notADirectory

/-- Puts something at a name in a directory. -/
def put (d : Disk) (parent : List Bytes) (name : Bytes) (n : DiskNode) : Disk :=
  { d with top := .replace n (parent ++ [name]) d.top }

/-- Does a change unless the next fault refuses it. -/
def change (f : Disk → Except IoError Disk) : Change Unit :=
  ExceptT.mk fun d =>
    let d' := { d with faults := d.faults.tail }
    match d.faults.head?.join with
    | some e => (.error e, d')
    | none =>
      match f d' with
      | .ok d'' => (.ok (), d'')
      | .error e => (.error e, d')

/-- Writes a file. -/
def setFile (p : Path) (c : Bytes) : Change Unit :=
  change fun d => do
    let t ← d.target p
    match t.name with
    | none => throw .isADirectory
    | some name =>
      if t.slash then throw .isADirectory
      match d.top.find? (t.parent ++ [name]) with
      | some (.dir _) => throw .isADirectory
      | _ => return d.put t.parent name (.file c)

/-- Makes a directory. -/
def makeDir (p : Path) : Change Unit :=
  change fun d => do
    let t ← d.target p
    match t.name with
    | none => throw .alreadyExists
    | some name =>
      if (d.top.find? (t.parent ++ [name])).isSome then throw .alreadyExists
      return d.put t.parent name (.dir [])

/-- Makes a directory; it does no harm when it is there. -/
def ensureDir (p : Path) : Change Unit := do
  try makeDir p
  catch e => unless (← get).isDir p do throw e

/-- Makes a directory and, when there is no place for it, at most `fuel` directories above it. -/
def makeDirsWith : (fuel : Nat) → Path → Change Unit
  | 0, _ => throw .notFound
  | fuel + 1, p => do
    if p.bytes.isEmpty then return
    try makeDir p
    catch e =>
      if e = .notFound then
        match p.parent? with
        | none => throw e
        | some above =>
          makeDirsWith fuel above
          ensureDir p
      else unless (← get).isDir p do throw e

/-- Makes a directory together with the directories above it that are missing. -/
def makeDirs (p : Path) : Change Unit := makeDirsWith (p.bytes.length + 1) p

/-- Removes a file or a directory with all that is in it. -/
def remove (p : Path) : Change Unit :=
  change fun d => do
    let place ← d.resolve p
    return { d with top := d.top.remove place }

end Disk

end PackageOutline
