import PackageOutline.Description.Basic
import PackageOutline.Notice
import PackageOutline.Outline.Edit

/-! # Outlines of descriptions

The outline that a description declares.  It starts out clean: it is taken to match its document.
Every edit is one of those that any caller could make, so a declaration that breaks the rules of
outlines would be refused. -/

namespace PackageOutline

namespace Description

/-- Builds an outline and reports on it. -/
abbrev Build := StateT Outline (Traced Violation)

/-- Does an edit. -/
def edit {α : Type} (e : Edit α) : Build α := fun o =>
  let (r, o) := e.run.run o
  Traced.ofExcept (r.map fun a => (a, o))

/-- Adds an item to the children of another. -/
def addItem (parent : Handle) (index : Nat) (kind : Kind) (name : String) : Build Handle := do
  StateT.lift <| Traced.note
    ⟨.trace, .items, s!"Creating {kind.text} item '{name}' below {parent.text}"⟩
  let h ← edit (Edit.create parent kind name)
  edit (Edit.attach parent index h)
  return h

mutual

/-- Adds a declared item and those below it. -/
def addDeclared (parent : Handle) (index : Nat) : Declaration → Build Unit
  | ⟨kind, name, items⟩ => do
    let h ← addItem parent index kind name
    addAllDeclared h 0 items

/-- Adds declared items from a position on. -/
def addAllDeclared (parent : Handle) (index : Nat) : List Declaration → Build Unit
  | [] => return ()
  | d :: ds => do
    addDeclared parent index d
    addAllDeclared parent (index + 1) ds

end

/-- Adds declared groups from a position on. -/
def addGroups (index : Nat) : List GroupDeclaration → Build Unit
  | [] => return ()
  | g :: gs => do
    let h ← addItem Outline.root index .group g.name
    addAllDeclared h 0 g.items
    addGroups (index + 1) gs

/-- The outline that a description declares, with the document that it is taken to match. -/
def build (d : Description) (document : Option SharedTree) : Traced Violation Outline := do
  let (_, o) ← (addGroups 0 d.groups).run (Outline.new d.package document)
  Traced.note ⟨.info, .description,
    s!"Built outline of package '{d.package}' with {o.itemCount} items"⟩
  return o

end Description

end PackageOutline
