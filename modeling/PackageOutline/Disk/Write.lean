import PackageOutline.Disk.Change
import PackageOutline.Notice
import PackageOutline.Tree.Fingerprint

/-! # Writing trees to disk

A tree is written with its directories; nothing is ever deleted.  Given the tree that is on disk
already, only files whose contents differ from it are written, and directories with the same
fingerprint are passed over.

Which directories count as the same is a parameter of `Disk.writeWith`: `Disk.writeTree` compares
fingerprints, `fun _ _ => false` never takes that short cut. -/

namespace PackageOutline

namespace Disk

/-- How many files were written, and how many were on disk already. -/
structure Summary where
  written : Nat := 0
  unchanged : Nat := 0
deriving DecidableEq, Repr

/-- The summary of two steps. -/
def Summary.add (a b : Summary) : Summary := ⟨a.written + b.written, a.unchanged + b.unchanged⟩

/-- A disk being written to, and what was reported. -/
structure Log where
  disk : Disk
  notices : List Notice := []

/-- Writes to a disk; a failure keeps what was written before it. -/
abbrev Writing := ExceptT DiskError (StateM Log)

/-- Reports something. -/
def note (level : Level) (text : String) : Writing Unit :=
  modify fun s => { s with notices := s.notices ++ [⟨level, .disk, text⟩] }

/-- Does a change at a path for a purpose. -/
def apply (action : DiskAction) (p : Path) (f : Path → Change Unit) : Writing Unit :=
  ExceptT.mk fun s =>
    let (r, disk) := (f p).run.run s.disk
    (r.mapError (⟨action, p, ·⟩), { s with disk })

variable {α β : Type}

mutual

/-- Writes a tree to a path where `previous` is, if anything. -/
def writeWith (isSame : Tree β → Tree α → Bool) (previous : Option (Tree β)) :
    Tree α → Path → Writing Summary
  | .file _ c, p => do
    if (previous.bind Tree.contents?) = some c then return { unchanged := 1 }
    apply .write p (setFile · c)
    note .info s!"Wrote {p.display}"
    return { written := 1 }
  | .dir l es, p => do
    if previous.any (isSame · (.dir l es)) then
      note .debug s!"Directory {p.display} is unchanged"
      return { unchanged := (Tree.dir l es).fileCount }
    apply .makeDir p makeDirs
    writeEntries isSame previous es p

/-- Writes entries below a path where `previous` is, if anything. -/
def writeEntries (isSame : Tree β → Tree α → Bool) (previous : Option (Tree β)) :
    List (String × Tree α) → Path → Writing Summary
  | [], _ => return {}
  | (name, t) :: es, p => do
    let before := previous.bind fun t => t.entry? name
    let first ← writeWith isSame before t (p.join (Utf8.encode name))
    return first.add (← writeEntries isSame previous es p)

end

/-- Writes a tree to a path where `previous` is, if anything. -/
def writeTree (t : Tree α) (p : Path) (previous : Option (Tree β)) : Writing Summary :=
  writeWith (fun previous t => previous.fingerprint = t.fingerprint) previous t p

end Disk

end PackageOutline
