import PackageOutline.Text.Quoted
import PackageOutline.Yaml.Basic

/-! # YAML values in reports

Every value is shown with the word for what it is. -/

namespace PackageOutline

/-- A scalar in reports. -/
def Scalar.display : Scalar → String
  | .null => "Null"
  | .boolean b => "Boolean(" ++ (if b then "true" else "false") ++ ")"
  | .integer n => "Integer(" ++ toString n ++ ")"
  | .real r => "FloatingPoint(OrderedFloat(" ++ r.text ++ "))"
  | .text s => "String(" ++ Text.quote s ++ ")"

/-- A tag in reports. -/
def Tag.display (t : Tag) : String :=
  "Tag \x7b handle: " ++ Text.quote t.handle ++ ", suffix: " ++ Text.quote t.suffix ++ " \x7d"

namespace Yaml

mutual

/-- A value in reports. -/
def display : Yaml → String
  | .scalar s => "Value(" ++ s.display ++ ")"
  | .bad => "BadValue"
  | .tagged tag value => "Tagged(" ++ tag.display ++ ", " ++ value.display ++ ")"
  | .sequence items => "Sequence([" ++ ", ".intercalate (displayItems items) ++ "])"
  | .mapping entries => "Mapping(\x7b" ++ ", ".intercalate (displayEntries entries) ++ "\x7d)"

/-- The items of a sequence in reports. -/
def displayItems : List Yaml → List String
  | [] => []
  | v :: vs => v.display :: displayItems vs

/-- The entries of a mapping in reports. -/
def displayEntries : List (Yaml × Yaml) → List String
  | [] => []
  | (k, v) :: es => (k.display ++ ": " ++ v.display) :: displayEntries es

end

end Yaml

end PackageOutline
