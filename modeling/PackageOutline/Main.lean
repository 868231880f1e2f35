import PackageOutline.CommandLine.Run
import PackageOutline.Description.Files

/-! # The program

Runs a command line on the working directory: the files that it may be about are read first, and
those that it has changed are written afterwards. -/

namespace PackageOutline

namespace WorkingDirectory

/-- Reads a file, if it is there, into a disk. -/
def fetch (d : Disk) (p : Path) : IO Disk := do
  try
    let contents ← IO.FS.readBinFile p.display
    let change := do
      Disk.makeDirs (p.parent?.getD p)
      Disk.setFile p contents.toList
    return (change.run.run d).2
  catch _ => return d

/-- What an invocation may write. -/
def outputs (i : Invocation) (declared : List DeclaredPath) : List DeclaredPath :=
  match i.command with
  | .view => []
  | .update .. => declared
  | .snapshot output => [⟨output, false⟩]

/-- Writes a file or makes a folder if a run has changed it. -/
def store (before after : Disk) (p : DeclaredPath) : IO Unit := do
  if p.isFolder then
    if after.isDir p.path && !before.isDir p.path then IO.FS.createDirAll p.path.display
  else
    match before.contentsAt p.path, after.contentsAt p.path with
    | old, .ok new =>
      if old.toOption ≠ some new then
        IO.FS.writeBinFile p.path.display ⟨new.toArray⟩
    | _, _ => return

/-- The disk that an invocation runs on, and what it declares. -/
def prepare (i : Invocation) : IO (Disk × List DeclaredPath) := do
  let d ← fetch {} (Project.descriptionPath i.root)
  match (Project.readDescription d i.root).result with
  | .error _ => return (d, [])
  | .ok description =>
    let declared := description.paths i.root
    let d ← declared.foldlM (fun d p => if p.isFolder then pure d else fetch d p.path) d
    match i.command with
    | .update _ source => return (← fetch d source, declared)
    | _ => return (d, declared)

end WorkingDirectory

end PackageOutline

open PackageOutline in
/-- Runs the command line. -/
def main (arguments : List String) : IO UInt32 := do
  let (before, changed) ← match CommandLine.parse arguments with
    | .error _ => pure ({}, [])
    | .ok i => do
      let (d, declared) ← WorkingDirectory.prepare i
      pure (d, WorkingDirectory.outputs i declared)
  let result := CommandLine.run false arguments before
  for p in changed do WorkingDirectory.store before result.disk p
  IO.print result.out
  IO.eprint result.err
  return result.code.toUInt32
