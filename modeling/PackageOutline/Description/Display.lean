import PackageOutline.Description.Basic
import PackageOutline.Text.Quoted

/-! # Descriptions in reports

A description is shown as nested records, every field with its name. -/

namespace PackageOutline

namespace Declaration

mutual

/-- A declared item in reports. -/
def display : Declaration → String
  | ⟨kind, name, items⟩ => Text.record "ItemSpec" [
      ("tag", kind.label),
      ("identifier", Text.quote name),
      ("items", Text.listed (displayAll items))]

/-- Declared items in reports. -/
def displayAll : List Declaration → List String
  | [] => []
  | d :: ds => d.display :: displayAll ds

end

end Declaration

/-- A group in reports. -/
def GroupDeclaration.display (g : GroupDeclaration) : String :=
  Text.record "GroupSpec" [
    ("identifier", Text.quote g.name),
    ("items", Text.listed (Declaration.displayAll g.items))]

/-- A description in reports. -/
def Description.display (d : Description) : String :=
  Text.record "ProjectDescription" [
    ("package", Text.quote d.package),
    ("groups", Text.listed (d.groups.map GroupDeclaration.display))]

end PackageOutline
