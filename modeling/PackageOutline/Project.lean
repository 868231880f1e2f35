import PackageOutline.Description.Build
import PackageOutline.Description.Display
import PackageOutline.Description.Parse
import PackageOutline.Disk.Read
import PackageOutline.Disk.Write
import PackageOutline.Outline.Image
import PackageOutline.Snapshot.Frame

/-! # Projects

A project is a directory with a description and the files of a package.  Loading it gives the
outline that is described, on top of the tree on disk.

* `Project.save` writes what has changed and makes it the document.  If that fails the root is dirty
  again, so that nothing is forgotten.
* `Project.update` replaces one file and saves.
* `Project.snapshot` writes the image of the whole outline to one file. -/

namespace PackageOutline

/-- Why something cannot be done with a project. -/
inductive ProjectError where
  | description (cause : DescriptionError)
  | unreadable (cause : DiskError)
  | unwritable (cause : DiskError)
  | unknownItem (path : String)
  | sourceUnreadable (path : Path) (cause : IoError)
  | outline (cause : OutlineError)
  | snapshotUnwritable (path : Path) (cause : IoError)
deriving DecidableEq, Repr

namespace ProjectError

/-- The error in words. -/
def message : ProjectError → String
  | .description _ => "Critical failure encountered while reading the project description"
  | .unreadable _ => "Failed to read the project from disk"
  | .unwritable _ => "Failed to write the project to disk"
  | .unknownItem path => s!"No item at '{path}' in the outline"
  | .sourceUnreadable path _ => s!"Failed to read {path.display}"
  | .outline _ => "Failed to update the outline"
  | .snapshotUnwritable path _ => s!"Failed to write the snapshot to {path.display}"

/-- What the error comes from, the latest cause first, in words. -/
def causes : ProjectError → List String
  | .description e => e.message :: e.causes
  | .unreadable e | .unwritable e => [e.message, e.cause.message]
  | .unknownItem _ => []
  | .sourceUnreadable _ e | .snapshotUnwritable _ e => [e.message]
  | .outline e => [e.message]

end ProjectError

/-- Why a call on a project gives no result. -/
inductive ProjectFailure where
  | violation (v : Violation)
  | error (e : ProjectError)
deriving DecidableEq, Repr

/-- The failure of a call on the outline of a project. -/
def ProjectFailure.ofOutline : Failure → ProjectFailure
  | .violation v => .violation v
  | .error e => .error (.outline e)

/-- An outline being worked on, and the disk it belongs to. -/
structure Project where
  workspace : Workspace
  disk : Disk

namespace Project

/-- Work on a project that may fail; a failure keeps what was done before it. -/
abbrev Act := ExceptT ProjectFailure (StateM Project)

variable {α : Type}

/-! ### Loading -/

/-- The name of the file with the description. -/
def descriptionName : String := "outline.yaml"

/-- Where the description of a project is. -/
def descriptionPath (root : Path) : Path := root.join (Utf8.encode descriptionName)

/-- Reads the description of a project. -/
def readDescription (d : Disk) (root : Path) : Traced DescriptionError Description := do
  let path := descriptionPath root
  Traced.note ⟨.debug, .description, s!"Reading project description: {path.display}"⟩
  let bytes ← Traced.ofExcept ((d.contentsAt path).mapError (.unreadable path))
  Traced.note ⟨.debug, .description,
    s!"Successfully read project description: {bytes.length} bytes"⟩
  let text ← Traced.ofExcept ((Utf8.decode bytes).mapError .notText)
  Description.ofString text

/-- Reads the description and the files of a project and builds its outline, with new objects from
`next` on; also gives the next identity after them. -/
def load (d : Disk) (next : ObjectId) (root : Path) :
    Traced ProjectFailure (Outline × ObjectId) := do
  let description ← (readDescription d root).mapError fun e => .error (.description e)
  Traced.note ⟨.debug, .project, "Loaded project description: " ++ description.display⟩
  let files ← (Disk.readTree d root).mapError fun e => .error (.unreadable e)
  Traced.note ⟨.info, .project, s!"Read {files.fileCount} files from {root.display}"⟩
  let (document, next) := files.number next
  let o ← (description.build (some document)).mapError .violation
  return (o, next)

/-! ### Working -/

/-- Works on the outline. -/
def onOutline (w : Work α) : Act α :=
  ExceptT.mk fun s =>
    let (r, workspace) := w.run.run s.workspace
    (r.mapError .ofOutline, { s with workspace })

/-- Writes to the disk. -/
def onDisk (w : Disk.Writing α) : Act (Except DiskError α) :=
  ExceptT.mk fun s =>
    let (r, log) := w.run.run ⟨s.disk, s.workspace.notices⟩
    (.ok r, { workspace := { s.workspace with notices := log.notices }, disk := log.disk })

/-- Reports something. -/
def report (level : Level) (origin : Origin) (text : String) : Act Unit :=
  onOutline (Workspace.note level origin text)

/-- Writes what is dirty below a directory and makes the new image of the root the document. -/
def save (held : List SharedTree) (root : Path) : Act Disk.Summary := do
  match ← onOutline (Workspace.refresh held Outline.root) with
  | none =>
    report .info .project "Project is up to date, nothing to save"
    return {}
  | some updated =>
    let previous := (← get).workspace.outline.document
    match ← onDisk (Disk.writeTree updated root previous) with
    | .error e =>
      report .warn .project s!"Saving failed, keeping unsaved changes: {e.message}"
      onOutline (Workspace.edit ((Edit.markDirty Outline.root).adapt .violation))
      throw (.error (.unwritable e))
    | .ok summary =>
      report .info .project
        s!"Saved project: {summary.written} files written, {summary.unchanged} unchanged"
      onOutline (Workspace.commit updated)
      return summary

/-- The item at a relative path. -/
def target (item : String) : Act Handle := do
  match (← get).workspace.outline.find? item with
  | .ok (some h) => return h
  | .ok none => throw (.error (.unknownItem item))
  | .error v => throw (.violation v)

/-- Replaces the contents of the file at `item` with those of `source`, and saves. -/
def update (held : List SharedTree) (root : Path) (item : String) (source : Path) :
    Act Disk.Summary := do
  let h ← target item
  match (← get).disk.contentsAt source with
  | .error e => throw (.error (.sourceUnreadable source e))
  | .ok contents =>
    onOutline (Workspace.edit (Edit.setContents h contents))
    let path := ((← get).workspace.outline.relativePath h).toOption.getD ""
    report .debug .items s!"Updating '{path}' with {contents.length} bytes"
    save held root

/-- Writes the image of the root to one file, for a way to compress; gives its size. -/
def snapshotWith (compress : Bytes → Bytes) (held : List SharedTree) (output : Path) : Act Nat := do
  let image ← onOutline (Workspace.image held Outline.root)
  let bytes := Snapshot.packWith compress image
  let size := bytes.length
  let plainSize := (Snapshot.encode image).length
  report .debug .snapshot
    s!"Serialized {image.fileCount} files into {size} bytes ({plainSize} uncompressed)"
  match ← onDisk (Disk.apply .write output (Disk.setFile · bytes)) with
  | .error e => throw (.error (.snapshotUnwritable output e.cause))
  | .ok () =>
    report .info .project s!"Wrote {size} byte snapshot to {output.display}"
    return size

/-- Writes the image of the root to one file; gives its size. -/
def snapshot (held : List SharedTree) (output : Path) : Act Nat :=
  snapshotWith Frame.write held output

end Project

end PackageOutline
