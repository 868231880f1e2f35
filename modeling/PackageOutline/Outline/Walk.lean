import PackageOutline.Outline.Lineage

/-! # Walks

`Outline.walk` lists an item and all items below it in display order, each with its depth, by means
of a list of pending items.  `Outline.preorder` is the same sequence by recursion on the tree. -/

namespace PackageOutline

namespace Outline

/-- Takes pending items one by one, puts the children of each in front of the others, and stops
after `steps` items. -/
def walkPending (o : Outline) :
    (steps : Nat) → (pending : List (Handle × Nat)) → Except Violation (List (Handle × Nat))
  | _, [] => .ok []
  | 0, _ :: _ => .ok []
  | steps + 1, (h, depth) :: pending => do
    let i ← o.item h
    let rest ← o.walkPending steps (i.children.map (·, depth + 1) ++ pending)
    return (h, depth) :: rest

/-- An item and all items below it in display order, with their depths below it. -/
def walk (o : Outline) (h : Handle) : Except Violation (List (Handle × Nat)) :=
  o.walkPending (o.slots.size + 1) [(h, 0)]

/-- The items down to `levels` levels below an item, each followed by those below it. -/
def preorder (o : Outline) : (levels depth : Nat) → Handle → List (Handle × Nat)
  | 0, depth, h => [(h, depth)]
  | levels + 1, depth, h =>
    (h, depth) :: ((o.get? h).elim [] Item.children).flatMap (o.preorder levels (depth + 1))

end Outline

end PackageOutline
