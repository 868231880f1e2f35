import PackageOutline.Kind
import PackageOutline.Tree.Edit

/-! # Outlines

An outline is an arena of items.  Items refer to each other by handles only: the index of a slot
and the generation that the slot had when the item was put there.  Releasing an item advances the
generation of its slot, so that a handle never reaches a later item of the same slot.

* `Outline.get?` looks a handle up, `Outline.item` also says what is wrong with one that is stale.
* `Outline.allocate` takes the slot that was released last, or a new one.
* `Outline.release` empties a slot.

Next to the items an outline holds its *document*, the tree that is known to be on disk; files
whose contents nobody supplied read theirs from it. -/

namespace PackageOutline

/-- Reference to an item that does not keep it alive. -/
structure Handle where
  index : Nat
  generation : UInt32
deriving DecidableEq, Repr, Inhabited

/-- A handle in messages. -/
def Handle.text (h : Handle) : String := s!"#{h.index}.{h.generation}"

/-- An item of an outline. -/
structure Item where
  kind : Kind
  name : String
  /-- The item that this one was made for; none for the root. -/
  parent : Option Handle
  /-- The items below, in display order. -/
  children : List Handle := []
  /-- Contents of a file, once supplied. -/
  contents : Option Bytes := none
  /-- The tree last made for the item; it counts while somebody still holds that object. -/
  cache : Option SharedTree := none
  /-- Whether the item or something below it changed since its tree was last asked for. -/
  dirty : Bool := false
deriving Repr, Inhabited

/-- A place for an item. -/
structure Slot where
  generation : UInt32
  item : Option Item
deriving Repr, Inhabited

/-- The arena of items, the indices of its empty slots (the last one released first) and the
document. -/
structure Outline where
  slots : Array Slot
  free : List Nat
  document : Option SharedTree
deriving Repr, Inhabited

/-- How a call breaks the contract of an outline. -/
inductive Violation where
  | missing (item : Handle)
  | released (item : Handle)
  | full
  | foreignParent (name : String)
  | alreadyAttached (name : String)
  | duplicate (name below : String)
  | insertOutOfBounds (index count : Nat)
  | invalidName (name : String)
  | groupBelowTop (name : String)
  | notGroupName (name : String)
  | misplaced (parent child : Kind) (name : String)
  | rootRemoved
  | notAttached (path : String)
  | moveOutOfBounds (start stop count : Nat)
  | notPermutation (path : String)
  | endlessChain (item : Handle)
  | detachedChain (item : Handle)
deriving DecidableEq, Repr

/-- The largest number of items. -/
def Outline.capacity : Nat := 4294967295

/-- The violation in words. -/
def Violation.message : Violation → String
  | .missing item => s!"Outline item {item.text} does not exist"
  | .released item => s!"Outline item {item.text} was already released"
  | .full => s!"Outline cannot hold more than {Outline.capacity} items"
  | .foreignParent name => s!"Item '{name}' was created for a different parent"
  | .alreadyAttached name => s!"Item '{name}' is already attached"
  | .duplicate name below => s!"Duplicate identifier '{name}' below '{below}'"
  | .insertOutOfBounds index count =>
    s!"Insertion index {index} is out of bounds for {count} children"
  | .invalidName name => s!"'{name}' is not a valid item identifier"
  | .groupBelowTop name => s!"Group '{name}' must be a toplevel item"
  | .notGroupName name => s!"'{name}' is not a toplevel group identifier"
  | .misplaced parent child name =>
    s!"A {parent.text} item cannot contain the {child.text} item '{name}'"
  | .rootRemoved => "The root item cannot be removed"
  | .notAttached path => s!"Item '{path}' is not attached to its parent"
  | .moveOutOfBounds start stop count =>
    s!"Cannot move child {start} to {stop} among {count} children"
  | .notPermutation path => s!"New order of '{path}' is not a permutation of its children"
  | .endlessChain item => s!"Parent chain of {item.text} does not reach the root"
  | .detachedChain item => s!"Parent chain of {item.text} ends in a detached item"

namespace Outline

/-- The handle of the package. -/
def root : Handle := ⟨0, 0⟩

/-- The outline of a package without any items below it. -/
def new (package : String) (document : Option SharedTree := none) : Outline where
  slots := #[⟨0, some { kind := .package, name := package, parent := none }⟩]
  free := []
  document := document

/-- Number of items, attached or not. -/
def itemCount (o : Outline) : Nat := o.slots.size - o.free.length

/-- The item of a handle, unless it was removed. -/
def get? (o : Outline) (h : Handle) : Option Item :=
  match o.slots[h.index]? with
  | none => none
  | some slot => if slot.generation = h.generation then slot.item else none

/-- Whether the item of a handle is still there. -/
def contains (o : Outline) (h : Handle) : Bool := (o.get? h).isSome

/-- The item of a handle that must be there. -/
def item (o : Outline) (h : Handle) : Except Violation Item :=
  match o.get? h with
  | none => .error (.missing h)
  | some i => .ok i

/-- Writes the item of a handle that is there. -/
def set (o : Outline) (h : Handle) (i : Item) : Outline :=
  { o with slots := o.slots.modify h.index fun slot => { slot with item := some i } }

/-- Changes the item of a handle that must be there. -/
def update (o : Outline) (h : Handle) (f : Item → Item) : Except Violation Outline :=
  (o.item h).map fun i => o.set h (f i)

/-- Puts an item into the slot released last, or into a new one. -/
def allocate (o : Outline) (i : Item) : Except Violation (Handle × Outline) :=
  match o.free with
  | index :: free =>
    let generation := (o.slots[index]?.map Slot.generation).getD 0
    let h : Handle := ⟨index, generation⟩
    .ok (h, { o.set h i with free })
  | [] =>
    if o.slots.size ≤ capacity then
      .ok (⟨o.slots.size, 0⟩, { o with slots := o.slots.push ⟨0, some i⟩ })
    else .error .full

/-- Empties the slot of an item; also gives the item that was there. -/
def release (o : Outline) (h : Handle) : Except Violation (Item × Outline) :=
  match o.slots[h.index]?.bind Slot.item with
  | none => .error (.released h)
  | some i =>
    let slots := o.slots.modify h.index fun slot => ⟨slot.generation + 1, none⟩
    .ok (i, { o with slots, free := h.index :: o.free })

end Outline

end PackageOutline
