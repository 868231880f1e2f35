import PackageOutline.Disk.Error
import PackageOutline.Kind
import PackageOutline.Path

/-! # Descriptions

A description declares of which items the outline of a package consists: the groups at its top
level, in order, and below each of them items that are nested at will.

* `Declaration.count` counts a declared item and all below it, `Declaration.preorder` lists them
  with their depths.
* `DescriptionError` says why a text describes no package. -/

namespace PackageOutline

/-- A declared item with the items declared below it. -/
structure Declaration where
  kind : Kind
  name : String
  items : List Declaration
deriving Repr

/-- A group at the top level with the items declared in it. -/
structure GroupDeclaration where
  name : String
  items : List Declaration
deriving Repr

/-- The declared outline of a package. -/
structure Description where
  package : String
  groups : List GroupDeclaration
deriving Repr

namespace Declaration

mutual

/-- Number of declared items at and below one. -/
def count : Declaration → Nat
  | ⟨_, _, items⟩ => 1 + countAll items

/-- Number of declared items at and below some. -/
def countAll : List Declaration → Nat
  | [] => 0
  | d :: ds => d.count + countAll ds

end

mutual

/-- Kinds, names and depths from one item down, in order. -/
def preorder (depth : Nat) : Declaration → List (Kind × String × Nat)
  | ⟨kind, name, items⟩ => (kind, name, depth) :: preorderAll (depth + 1) items

/-- Kinds, names and depths from some items down, in order. -/
def preorderAll (depth : Nat) : List Declaration → List (Kind × String × Nat)
  | [] => []
  | d :: ds => d.preorder depth ++ preorderAll depth ds

end

end Declaration

/-- Number of some groups and of the items declared in them. -/
def GroupDeclaration.countAll : List GroupDeclaration → Nat
  | [] => 0
  | g :: gs => 1 + Declaration.countAll g.items + countAll gs

/-- Number of items that a description declares, the package and its groups included. -/
def Description.count (d : Description) : Nat := 1 + GroupDeclaration.countAll d.groups

/-- Why there is no description. -/
inductive DescriptionError where
  | unreadable (path : Path) (cause : IoError)
  | notText (fault : Utf8.Fault)
  | malformed
  | noDocument
  | notMapping
  | noPackage
  | groupsNotMapping
  | unknownGroup (name : String)
  | itemsNotSequence (parent : String)
  | invalidName (name : String)
  | misplaced (kind : Kind) (name parent : String)
  | duplicate (name parent : String)
deriving DecidableEq, Repr

namespace DescriptionError

/-- The error in words. -/
def message : DescriptionError → String
  | .unreadable path _ => s!"Failed to read the project description: {path.display}"
  | .notText _ => "The project description is not valid UTF-8"
  | .malformed => "Failed to parse the project description"
  | .noDocument => "Improperly formatted project description"
  | .notMapping => "Top level of the project description should be a map"
  | .noPackage => "The project description must name its package"
  | .groupsNotMapping => "Groups section should be a map"
  | .unknownGroup name => s!"'{name}' is not a toplevel group"
  | .itemsNotSequence parent => s!"Items of '{parent}' should be a list"
  | .invalidName name => s!"'{name}' is not a valid item identifier"
  | .misplaced kind name parent => s!"'{parent}' cannot contain the {kind.text} '{name}'"
  | .duplicate name parent => s!"'{name}' is declared multiple times in '{parent}'"

/-- What the error comes from, in words. -/
def causes : DescriptionError → List String
  | .unreadable _ cause => [cause.message]
  | .notText fault => [fault.message]
  | _ => []

end DescriptionError

end PackageOutline
