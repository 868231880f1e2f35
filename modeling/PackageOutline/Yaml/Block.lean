import PackageOutline.Yaml.Flowing

/-! # Block scalars

Literal and folded scalars.  Their content is a block of lines of one indentation, which the header
gives or the first line shows.

* A literal scalar keeps its line breaks.  A folded one folds those between lines that begin with
  something other than a blank.
* The header says whether the breaks at the end are stripped, clipped to one or kept. -/

namespace PackageOutline

namespace Yaml

open Reader

/-- What becomes of the line breaks at the end of a block scalar. -/
inductive Chomping where
  | strip
  | clip
  | keep
deriving DecidableEq, Repr

/-- The header of a block scalar. -/
structure BlockHeader where
  chomping : Chomping := .clip
  /-- Columns of indentation below the block around it, if given. -/
  indent : Option Nat := none
deriving DecidableEq, Repr

/-- Reads a chomping mark if there is one. -/
def chompingMark : Reader (Option Chomping) := do
  match ← peek with
  | some '+' => skip 1; return some .keep
  | some '-' => skip 1; return some .strip
  | _ => return none

/-- Reads a digit for the indentation, which is not zero, if there is one. -/
def indentMark : Reader (Option Nat) := do
  match ← peek with
  | some c =>
    if c.isDigit then
      require (c != '0')
      skip 1
      return some (c.toNat - '0'.toNat)
    else return none
  | none => return none

/-- Reads the marks of a header, in either order. -/
def blockHeader : Reader BlockHeader := do
  match ← chompingMark with
  | some chomping => return { chomping, indent := ← indentMark }
  | none =>
    let indent ← indentMark
    let chomping ← if indent.isSome then chompingMark else pure none
    return { chomping := chomping.getD .clip, indent }

/-- Reads empty lines and at most `indent` spaces; gives the number of lines. -/
def blockIndent (indent : Nat) : Reader Nat :=
  iterate 0 fun breaks => do
    let c ← get
    let spaces := (c.rest.takeWhile (· == ' ')).length
    skip (min spaces (indent - c.column))
    if (← peek) = some '\n' then skip 1; return .inl (breaks + 1)
    else return .inr breaks

/-- Reads empty lines and all spaces; gives the number of lines and the furthest column. -/
def firstBlockIndent : Reader (Nat × Nat) :=
  iterate (0, 0) fun (breaks, furthest) => do
    discard (takeWhile (· == ' '))
    let furthest := max furthest (← get).column
    if (← peek) = some '\n' then skip 1; return .inl (breaks + 1, furthest)
    else return .inr (breaks, furthest)

/-- A block scalar, as far as it has been read. -/
structure BlockText where
  text : String := ""
  /-- Whether a line was ended. -/
  ended : Bool := false
  /-- Number of empty lines behind it. -/
  breaks : Nat
  /-- Whether the last line began with a blank. -/
  blank : Bool := false
deriving DecidableEq, Repr

/-- The line breaks in front of a line. -/
def BlockText.separator (b : BlockText) (isLiteral blank : Bool) : String :=
  if !isLiteral && b.ended && !b.blank && !blank then
    if b.breaks = 0 then " " else Gap.lines b.breaks
  else Gap.lines ((if b.ended then 1 else 0) + b.breaks)

/-- Reads the lines of a block scalar. -/
def blockLines (isLiteral : Bool) (indent breaks : Nat) : Reader BlockText :=
  iterate { breaks } fun b => do
    let c ← get
    if c.column ≠ indent || c.rest.isEmpty || (indent = 0 && c.isMarker '.') then return .inr b
    let blank := c.rest.head?.any isBlank
    let line ← takeWhile (· != '\n')
    let text := b.text ++ b.separator isLiteral blank ++ String.ofList line
    if (← get).rest.isEmpty then return .inr { text, breaks := 0, blank }
    skip 1
    return .inl { text, ended := true, breaks := ← blockIndent indent, blank }

/-- Reads a block scalar from its mark on, with `around` the column of the block around it. -/
def block (isLiteral : Bool) (around : Int) : Reader String := do
  let start ← get
  skip 1
  let header ← blockHeader
  discard toLineEnd
  require (isLineEnd (← peek))
  skip 1
  require ((← peek) != some '\t')
  let (breaks, indent) ← match header.indent with
    | some n => do
      let indent := (max around 0).toNat + n
      pure (← blockIndent indent, indent)
    | none => do
      let (breaks, furthest) ← firstBlockIndent
      let indent := max furthest (around + 1).toNat
      pure (breaks, if 0 < around then max indent 1 else indent)
  let c ← get
  if c.rest.isEmpty then
    return match header.chomping with
      | .strip => ""
      | _ =>
        if c.line = start.line then ""
        else if header.chomping = .keep then Gap.lines (max breaks 1)
        else "\n"
  require !(decide (c.column < indent) && decide (around < c.column))
  let b ← blockLines isLiteral indent breaks
  let c ← get
  let unended := c.rest.isEmpty && max around 1 ≤ c.column
  let last := (if b.ended then 1 else 0) + (if unended then 1 else 0)
  return b.text ++ match header.chomping with
    | .strip => ""
    | .clip => Gap.lines last
    | .keep => Gap.lines (last + b.breaks)

end Yaml

end PackageOutline
