import PackageOutline.Outline.Walk

/-! # Showing an outline

An outline is shown as an indented list, one item a line, two columns for each level.  A star marks
items that are dirty, a slash ends the names of folders.  On a terminal the kinds of items have
colours. -/

namespace PackageOutline

namespace Render

/-- The control sequence of a style. -/
def sequence (code : String) : List Char := '\x1b' :: '[' :: (code.toList ++ ['m'])

/-- The control sequence that ends all styles. -/
def reset : List Char := sequence "0"

/-- Writes `again` behind every `reset` in a text. -/
def resume (again : List Char) : List Char → List Char
  | '\x1b' :: '[' :: '0' :: 'm' :: cs => reset ++ again ++ resume again cs
  | c :: cs => c :: resume again cs
  | [] => []

/-- A text in a style: its sequence, the text and a reset.  The style is taken up again where the
text itself resets it. -/
def paint (code : String) (s : String) : String :=
  String.ofList (sequence code ++ resume (sequence code) s.toList ++ reset)

/-- The style of a kind of items; files have none. -/
def style : Kind → Option String
  | .package => some "1;94"
  | .group => some "1"
  | .executable => some "32"
  | .fileGroup => some "36"
  | .folder => some "34"
  | .file => none

/-- A text in a style, if there is one and colours are wanted. -/
def styled (color : Bool) (code : Option String) (s : String) : String :=
  match color, code with
  | true, some code => paint code s
  | _, _ => s

/-- The line of an item. -/
def line (color : Bool) (depth : Nat) (i : Item) : String :=
  let indent := String.ofList (List.replicate (2 * depth) ' ')
  let name := if i.kind = .folder then i.name ++ "/" else i.name
  let marker := if i.dirty then styled color (some "33") " *" else ""
  indent ++ styled color (style i.kind) name ++ marker ++ "\n"

/-- The lines of all items. -/
def outline (color : Bool) (o : Outline) : Except Violation String := do
  let walked ← o.walk Outline.root
  let lines ← walked.mapM fun (h, depth) => return line color depth (← o.item h)
  return String.join lines

end Render

end PackageOutline
