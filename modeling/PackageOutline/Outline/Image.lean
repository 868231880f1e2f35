import PackageOutline.Notice
import PackageOutline.Outline.Edit
import PackageOutline.Tree.Fingerprint

/-! # Images of items

The image of an item is the tree that it stands for: a file its contents, every other item a
directory of what its children contribute.  A folder or file contributes its image under its name, a
transparent item the entries of its image.

An item remembers the image that was made last.  The memory counts while the item is not dirty and
somebody still holds the object, so every computation gets the trees that are held (`held`); what it
has made itself so far is held as well.

* `Workspace.image` answers from memory where it can and makes the image otherwise.
* `Workspace.refresh` makes the image of a dirty item anew, and with it those of all dirty items
  below, which are clean afterwards. -/

namespace PackageOutline

/-- An outline being worked on, the next fresh identity and what was reported. -/
structure Workspace where
  outline : Outline
  next : ObjectId
  notices : List Notice := []

/-- Work on an outline that may fail; a failure keeps what was done before it. -/
abbrev Work := ExceptT Failure (StateM Workspace)

/-- Whether an object is part of one of the trees that are held. -/
def Tree.isHeld (held : List SharedTree) (t : SharedTree) : Bool :=
  held.any (·.hasLabel t.label)

/-- The image that an item remembers, if it still counts. -/
def Item.cached (held : List SharedTree) (i : Item) : Option SharedTree :=
  if i.dirty then none else i.cache.filter (·.isHeld held)

namespace Workspace

variable {α : Type}

/-- Reports something. -/
def note (level : Level) (origin : Origin) (text : String) : Work Unit :=
  modify fun w => { w with notices := w.notices ++ [⟨level, origin, text⟩] }

/-- Computes something from the outline. -/
def read (f : Outline → Except Violation α) : Work α :=
  ExceptT.mk fun w => ((f w.outline).mapError .violation, w)

/-- Changes the item of a handle. -/
def updateItem (h : Handle) (f : Item → Item) : Work Unit :=
  ExceptT.mk fun w => match w.outline.update h f with
    | .ok outline => (.ok (), { w with outline })
    | .error v => (.error (.violation v), w)

/-- Makes a new object. -/
def make (f : ObjectId → SharedTree) : Work SharedTree :=
  ExceptT.mk fun w => (.ok (f w.next), { w with next := w.next + 1 })

/-- The image of a file: its contents, or the file of the document at its path. -/
def fileImage (h : Handle) : Work SharedTree := do
  let i ← read (·.item h)
  match i.contents with
  | some c => make fun l => .file l c
  | none =>
    let names ← read (·.diskNames h)
    match ((← get).outline.document.bind (·.find? names)).filter (!·.isDir) with
    | some t => return t
    | none => throw (.error (.missingData (.ofNames names)))

/-- What an item with an image contributes to the directory it lies in. -/
def contribution (i : Item) (image : Tree α) : List (String × Tree α) :=
  if i.kind.isTransparent then image.entries else [(i.name, image)]

/-- The first text that occurred before. -/
def firstRepeat : (seen : List String) → List String → Option String
  | _, [] => none
  | seen, n :: ns => if seen.contains n then some n else firstRepeat (n :: seen) ns

/-- The directory that the children of an item make up. -/
def assemble (h : Handle) (parts : List (Handle × SharedTree)) : Work SharedTree := do
  let contributions ← parts.mapM fun (child, image) => do
    return contribution (← read (·.item child)) image
  let entries := contributions.flatten
  match firstRepeat [] (Entries.keys entries) with
  | some name =>
    let names ← read (·.diskNames h)
    throw (.error (.conflict (.ofNames (names ++ [name]))))
  | none => make fun l => .dir l entries

/-- The image of an item, at most `levels` levels deep. -/
def imageAt (held : List SharedTree) : (levels : Nat) → (made : List SharedTree) → Handle →
    Work SharedTree
  | 0, _, h => throw (.violation (.missing h))
  | levels + 1, made, h => do
    let i ← read (·.item h)
    match i.cached (made ++ held) with
    | some image =>
      note .trace .images s!"Reusing cached wrapper of {h.text}"
      return image
    | none =>
      let image ←
        if i.kind = .file then fileImage h
        else
          let parts ← i.children.foldlM (fun parts child => do
            let part ← imageAt held levels (parts.map Prod.snd ++ made) child
            return parts ++ [(child, part)]) []
          assemble h parts
      updateItem h fun i => { i with cache := some image }
      return image

/-- The new image of a dirty item, at most `levels` levels deep; nothing for a clean one. -/
def refreshAt (held : List SharedTree) : (levels : Nat) → (made : List SharedTree) → Handle →
    Work (Option SharedTree)
  | 0, _, h => throw (.violation (.missing h))
  | levels + 1, made, h => do
    let i ← read (·.item h)
    if !i.dirty then return none
    let image ←
      if i.kind = .file then fileImage h
      else
        let (parts, fresh) ← i.children.foldlM (fun (parts, fresh) child => do
          let made := parts.map Prod.snd ++ made
          match ← refreshAt held levels made child with
          | some part => return (parts ++ [(child, part)], fresh + 1)
          | none => return (parts ++ [(child, ← imageAt held levels made child)], fresh)) ([], 0)
        let path := ((← get).outline.relativePath h).toOption.getD ""
        note .debug .images
          s!"Rebuilding '{path}' with {fresh} of {parts.length} children updated"
        assemble h parts
    updateItem h fun i => { i with dirty := false, cache := some image }
    return some image

/-- A bound for the depth of the outline. -/
def levels (w : Workspace) : Nat := w.outline.slots.size + 1

/-- The image of an item. -/
def image (held : List SharedTree) (h : Handle) : Work SharedTree := do
  let w ← get
  imageAt (w.outline.document.toList ++ held) w.levels [] h

/-- The new image of a dirty item; afterwards it and everything below it is clean. -/
def refresh (held : List SharedTree) (h : Handle) : Work (Option SharedTree) := do
  let w ← get
  refreshAt (w.outline.document.toList ++ held) w.levels [] h

/-- Makes a tree the document of the outline. -/
def commit (document : SharedTree) : Work Unit := do
  let mark := Fingerprint.hex document.fingerprint
  note .debug .items s!"Committing document with {document.fileCount} files ({mark})"
  modify fun w => { w with outline := { w.outline with document := some document } }

/-- Does an edit. -/
def edit (e : ExceptT Failure (StateM Outline) α) : Work α :=
  ExceptT.mk fun w =>
    let (r, outline) := e.run.run w.outline
    (r, { w with outline })

end Workspace

end PackageOutline
