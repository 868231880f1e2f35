import PackageOutline.Text.Utf8

/-! # Paths

A path is a sequence of bytes in which slashes separate components.  Only the components that
name something count inside a tree (`Path.names`): empty components, `.`, `..` and a leading
slash are ignored there.  On disk every piece counts (`Path.pieces`).

`Path.join` appends one component: an absolute component replaces the path, and an empty one leaves
a trailing slash. -/

namespace PackageOutline

/-- A path, as the bytes it is written with. -/
structure Path where
  bytes : Bytes
deriving DecidableEq, Repr, Inhabited

namespace Path

/-- The separator. -/
def slash : UInt8 := 0x2F

/-- The component that stays in place. -/
def dot : Bytes := [0x2E]

/-- The component that goes up. -/
def dotDot : Bytes := [0x2E, 0x2E]

/-- The path written as a text. -/
def ofString (s : String) : Path := ⟨Utf8.encode s⟩

/-- The relative path through the given names. -/
def ofNames (ns : List String) : Path := ⟨[slash].intercalate (ns.map Utf8.encode)⟩

/-- The pieces between slashes, empty ones included. -/
def pieces (p : Path) : List Bytes := p.bytes.splitOn slash

/-- Whether a piece names something below the directory it is used in. -/
def isName (piece : Bytes) : Bool := piece != [] && piece != dot && piece != dotDot

/-- The components that name something, as text. -/
def names (p : Path) : List String := (p.pieces.filter isName).map Utf8.repair

/-- The path as text for messages. -/
def display (p : Path) : String := Utf8.repair p.bytes

/-- Whether the path starts at the root of the file system. -/
def isAbsolute (p : Path) : Bool := p.bytes.head? == some slash

/-- Appends a component. -/
def join (p : Path) (piece : Bytes) : Path :=
  if piece.head? == some slash then ⟨piece⟩
  else if p.bytes.isEmpty || p.bytes.getLast? == some slash then ⟨p.bytes ++ piece⟩
  else ⟨p.bytes ++ slash :: piece⟩

/-- Whether a piece may be left out of a path between others. -/
def isIdle (piece : Bytes) : Bool := piece == [] || piece == dot

/-- The path without its last component; nothing for a path without components.  A leading `.` is a
component, pieces that change nothing elsewhere are not. -/
def parent? (p : Path) : Option Path :=
  let pieces := if p.isAbsolute then p.pieces.tail else p.pieces
  let leading := !p.isAbsolute && pieces.head? == some dot
  let top : Path := if p.isAbsolute then ⟨[slash]⟩ else ⟨[]⟩
  match pieces.reverse.dropWhile isIdle with
  | [] => if leading then some top else none
  | _ :: above =>
    match above.dropWhile isIdle with
    | [] => some (if leading then ⟨dot⟩ else top)
    | above => some ⟨(if p.isAbsolute then [slash] else []) ++ [slash].intercalate above.reverse⟩

end Path

end PackageOutline
