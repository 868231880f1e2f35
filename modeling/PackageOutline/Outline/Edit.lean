import PackageOutline.Outline.Walk

/-! # Edits

Every edit of an outline keeps its tree in order: items lie below items that admit them, siblings
have different names, and groups lie below the root and have the reserved names.  An edit that
would break these rules is refused with a `Violation`.

An edit that changes what an item or its place stands for also marks the item and everything above
it as dirty (`Edit.markDirty`).  A refusal leaves what was done before it: `Edit.add` leaves an item
that is not attached, and marking stops where the chain of parents breaks. -/

namespace PackageOutline

/-- A change of an outline that may be refused; a refusal keeps what was changed before it. -/
abbrev Edit := ExceptT Violation (StateM Outline)

/-- Why the data of an item or the tree of an item cannot be had. -/
inductive OutlineError where
  | notAFile (kind : Kind) (name : String)
  | missingData (path : Path)
  | conflict (path : Path)
deriving DecidableEq, Repr

/-- The error in words. -/
def OutlineError.message : OutlineError → String
  | .notAFile kind name =>
    s!"Cannot replace the data of {kind.text} '{name}': only files carry data"
  | .missingData path => s!"No backing data for file {path.display}"
  | .conflict path => s!"{path.display} is contributed by more than one item"

/-- Why a call on an outline gives no result. -/
inductive Failure where
  | violation (v : Violation)
  | error (e : OutlineError)
deriving DecidableEq, Repr

namespace Outline

/-- Whether an item of a kind and name may be made below `parent`. -/
def checkPlacement (o : Outline) (parent : Handle) (kind : Kind) (name : String) :
    Except Violation Unit := do
  unless Identifier.isValid name do throw (.invalidName name)
  if kind = .group then
    unless parent = root do throw (.groupBelowTop name)
    unless Identifier.isGroup name do throw (.notGroupName name)
  let above ← o.item parent
  unless above.kind.admits kind do throw (.misplaced above.kind kind name)

/-- Whether no child of `parent`, `self` left aside, has the name. -/
def checkSiblings (o : Outline) (parent : Handle) (name : String) (self : Option Handle) :
    Except Violation Unit := do
  let above ← o.item parent
  if above.children.any fun child => some child ≠ self && o.isNamed name child then
    throw (.duplicate name (← o.relativePath parent))

/-- Whether an item may get another name. -/
def checkName (o : Outline) (h : Handle) (i : Item) (name : String) : Except Violation Unit := do
  match i.parent with
  | none => pure ()
  | some parent =>
    unless Identifier.isValid name do throw (.invalidName name)
    o.checkSiblings parent name (some h)
  if i.kind = .group then
    unless Identifier.isGroup name do throw (.notGroupName name)

/-- Makes an item for `parent` that is not attached to it yet. -/
def create (o : Outline) (parent : Handle) (kind : Kind) (name : String) :
    Except Violation (Handle × Outline) := do
  o.checkPlacement parent kind name
  o.allocate { kind, name, parent := some parent }

/-- Puts an item made for `parent` among its children, at a position. -/
def attach (o : Outline) (parent : Handle) (index : Nat) (h : Handle) :
    Except Violation Outline := do
  let i ← o.item h
  unless i.parent = some parent do throw (.foreignParent i.name)
  let above ← o.item parent
  if above.children.contains h then throw (.alreadyAttached i.name)
  o.checkSiblings parent i.name none
  unless index ≤ above.children.length do
    throw (.insertOutOfBounds index above.children.length)
  return o.set parent { above with children := above.children.insertIdx index h }

/-- Moves the child at position `start` to position `stop`, counted without it. -/
def moveChild (o : Outline) (parent : Handle) (start stop : Nat) : Except Violation Outline := do
  let above ← o.item parent
  let count := above.children.length
  match above.children[start]? with
  | none => throw (.moveOutOfBounds start stop count)
  | some child =>
    unless stop < count do throw (.moveOutOfBounds start stop count)
    let children := (above.children.eraseIdx start).insertIdx stop child
    return o.set parent { above with children }

/-- Whether two lists of handles, the second without repeats, hold the same handles as often. -/
def isReorder (order children : List Handle) : Bool :=
  order.length = children.length && order.all children.contains && children.all order.contains

/-- Gives the children of an item a new order. -/
def arrange (o : Outline) (parent : Handle) (order : List Handle) : Except Violation Outline := do
  let above ← o.item parent
  unless isReorder order above.children do throw (.notPermutation (← o.relativePath parent))
  return o.set parent { above with children := order }

/-- Takes an item out of the children of its parent; also gives the parent. -/
def detach (o : Outline) (h : Handle) : Except Violation (Handle × Outline) := do
  let i ← o.item h
  match i.parent with
  | none => throw .rootRemoved
  | some parent =>
    let path ← o.relativePath h
    let above ← o.item parent
    unless above.children.contains h do throw (.notAttached path)
    return (parent, o.set parent { above with children := above.children.erase h })

end Outline

namespace Edit

variable {α : Type}

/-- Computes something from the outline. -/
def read (f : Outline → Except Violation α) : Edit α := ExceptT.mk fun o => (f o, o)

/-- Changes the outline, or leaves it as it is and is refused. -/
def change (f : Outline → Except Violation Outline) : Edit Unit :=
  ExceptT.mk fun o => match f o with
    | .ok o' => (.ok (), o')
    | .error v => (.error v, o)

/-- Changes the outline with a result, or leaves it as it is and is refused. -/
def changeWith (f : Outline → Except Violation (α × Outline)) : Edit α :=
  ExceptT.mk fun o => match f o with
    | .ok (a, o') => (.ok a, o')
    | .error v => (.error v, o)

/-- Marks an item and at most `steps - 1` items above it. -/
def markUp : (steps : Nat) → Handle → Edit Unit
  | 0, _ => pure ()
  | steps + 1, h => do
    let i ← read (·.item h)
    change (·.update h fun i => { i with dirty := true, cache := none })
    match i.parent with
    | none => pure ()
    | some parent => markUp steps parent

/-- Marks an item and all items above it as dirty, and forgets their cached trees. -/
def markDirty (h : Handle) : Edit Unit := do
  markUp (← get).slots.size h

/-- Makes an item for `parent` that is not attached to it yet. -/
def create (parent : Handle) (kind : Kind) (name : String) : Edit Handle :=
  changeWith (·.create parent kind name)

/-- Attaches an item without marking anything, as is right for items that are on disk already. -/
def attach (parent : Handle) (index : Nat) (h : Handle) : Edit Unit :=
  change (·.attach parent index h)

/-- Attaches an item. -/
def insert (parent : Handle) (index : Nat) (h : Handle) : Edit Unit := do
  attach parent index h
  markDirty h

/-- Makes an item and attaches it behind the other children of `parent`. -/
def add (parent : Handle) (kind : Kind) (name : String) : Edit Handle := do
  let h ← create parent kind name
  let above ← read (·.item parent)
  insert parent above.children.length h
  return h

/-- Gives contents out of a document to a file that has none. -/
def keepFile (document : SharedTree) (h : Handle) : Edit Unit := do
  let i ← read (·.item h)
  if i.kind.holdsData && i.contents.isNone then
    let names ← read (·.diskNames h)
    match (document.find? names).bind Tree.contents? with
    | none => pure ()
    | some c => change (·.update h fun i => { i with contents := some c })

/-- Gives contents to the files at or below an item that have none, out of the document: their
paths are about to change, and with them their place in the document. -/
def keepContents (h : Handle) : Edit Unit := do
  match (← get).document with
  | none => pure ()
  | some document =>
    let walked ← read (·.walk h)
    walked.forM fun (file, _) => keepFile document file

/-- Gives an item another name. -/
def rename (h : Handle) (name : String) : Edit Unit := do
  let i ← read (·.item h)
  read (·.checkName h i name)
  if i.kind.namesPath then keepContents h
  change (·.update h fun i => { i with name })
  markDirty h

/-- Releases pending items one by one, together with the items below them. -/
def releasePending : (steps : Nat) → (pending : List Handle) → Edit Unit
  | _, [] => pure ()
  | 0, _ :: _ => pure ()
  | steps + 1, h :: pending => do
    let i ← changeWith (·.release h)
    releasePending steps (i.children.reverse ++ pending)

/-- Removes an item with everything below it. -/
def remove (h : Handle) : Edit Unit := do
  let parent ← changeWith (·.detach h)
  releasePending (← get).slots.size [h]
  markDirty parent

/-- Moves a child to another position. -/
def move (parent : Handle) (start stop : Nat) : Edit Unit := do
  change (·.moveChild parent start stop)
  markDirty parent

/-- Gives the children of an item a new order. -/
def reorder (parent : Handle) (order : List Handle) : Edit Unit := do
  change (·.arrange parent order)
  markDirty parent

/-- Replaces the contents of a file. -/
def setContents (h : Handle) (c : Bytes) : ExceptT Failure (StateM Outline) Unit := do
  let i ← (read (·.item h)).adapt .violation
  unless i.kind.holdsData do throw (.error (.notAFile i.kind i.name))
  ExceptT.adapt .violation do
    change (·.update h fun i => { i with contents := some c })
    markDirty h

end Edit

end PackageOutline
