import PackageOutline.Outline.Basic

/-! # Where items are

The lineage of an item are the items from the root down to it.  It gives the item two addresses:

* `Outline.relativePath`, the names of all items below the root on the way, and
* `Outline.diskNames`, the names of those that stand for something on disk.

`Outline.find?` follows a relative path down from the root. -/

namespace PackageOutline

namespace Outline

/-- The end of a chain of parents, which is to be the root. -/
def endChain (origin : Handle) (below : List Handle) (top : Handle) :
    Except Violation (List Handle) :=
  if top = root then .ok (top :: below) else .error (.detachedChain origin)

/-- Climbs from `current` to the root and lists the items passed, the highest first.  At most
`steps` parents are followed: more than there are items means that the chain does not end. -/
def climb (o : Outline) (origin : Handle) :
    (steps : Nat) → (below : List Handle) → (current : Handle) → Except Violation (List Handle)
  | 0, below, current => do
    let i ← o.item current
    match i.parent with
    | none => endChain origin below current
    | some _ => .error (.endlessChain origin)
  | steps + 1, below, current => do
    let i ← o.item current
    match i.parent with
    | none => endChain origin below current
    | some parent => climb o origin steps (current :: below) parent

/-- The items from the root down to an item, both included. -/
def lineage (o : Outline) (h : Handle) : Except Violation (List Handle) :=
  o.climb h o.itemCount [] h

/-- The items of some handles that must all be there. -/
def items (o : Outline) (hs : List Handle) : Except Violation (List Item) := hs.mapM o.item

/-- The names of the items below the root on the way to an item, separated by slashes. -/
def relativePath (o : Outline) (h : Handle) : Except Violation String := do
  let line ← o.lineage h
  let below ← o.items line.tail
  return "/".intercalate (below.map Item.name)

/-- The names on the way to an item that are components of paths on disk. -/
def diskNames (o : Outline) (h : Handle) : Except Violation (List String) := do
  let line ← o.lineage h
  let items ← o.items line
  return (items.filter (·.kind.namesPath)).map Item.name

/-- Whether an item is there and has a name. -/
def isNamed (o : Outline) (name : String) (h : Handle) : Bool :=
  (o.get? h).any (·.name == name)

/-- The child of an item that has a name. -/
def child? (o : Outline) (parent : Handle) (name : String) : Except Violation (Option Handle) := do
  let i ← o.item parent
  return i.children.find? (o.isNamed name)

/-- Follows names down from an item. -/
def descend (o : Outline) : List String → Handle → Except Violation (Option Handle)
  | [], h => .ok (some h)
  | name :: names, h => do
    match ← o.child? h name with
    | none => return none
    | some child => o.descend names child

/-- The components of a relative path, empty ones left out. -/
def components (path : String) : List String :=
  ((path.toList.splitOn '/').filter (· ≠ [])).map String.ofList

/-- The item at a relative path; empty components are ignored. -/
def find? (o : Outline) (path : String) : Except Violation (Option Handle) :=
  o.descend (components path) root

end Outline

end PackageOutline
