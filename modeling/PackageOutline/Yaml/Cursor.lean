/-! # Reading a text

A cursor stands in a text and knows its line and column.  A reader moves a cursor forward or
fails; loops are run by `Reader.iterate`, which allows at most one round for each character of the
text, and one more.

Line breaks are single characters here (`Cursor.ofString` joins a carriage return with the line
feed that follows), and the text ends at the first null character. -/

namespace PackageOutline

namespace Yaml

/-- Spaces and tabs. -/
def isBlank (c : Char) : Bool := c == ' ' || c == '\t'

/-- The marks of flow collections. -/
def isFlowMark (c : Char) : Bool := ",[]{}".toList.contains c

/-- Letters, digits, the hyphen and the underscore. -/
def isWordChar (c : Char) : Bool := c.isAlphanum || c == '-' || c == '_'

/-- Whether the next character, if there is one, is a blank or a line break. -/
def isGap : Option Char → Bool
  | none => true
  | some c => isBlank c || c == '\n'

/-- Whether nothing is left of a line. -/
def isLineEnd : Option Char → Bool
  | none => true
  | some c => c == '\n'

/-- Line breaks written as one character, up to the first null character. -/
def normalize : List Char → List Char
  | [] => []
  | '\x00' :: _ => []
  | '\r' :: '\n' :: cs => '\n' :: normalize cs
  | '\r' :: cs => '\n' :: normalize cs
  | c :: cs => c :: normalize cs

/-- A place in a text. -/
structure Cursor where
  /-- What has not been read. -/
  rest : List Char
  /-- More than the number of characters of the whole text. -/
  bound : Nat
  line : Nat := 0
  column : Nat := 0
  /-- Whether only blanks stand before it on its line. -/
  leading : Bool := true
deriving DecidableEq, Repr

namespace Cursor

/-- The start of a text. -/
def ofString (s : String) : Cursor :=
  let cs := normalize s.toList
  { rest := cs, bound := cs.length + 1 }

/-- The place one character further on. -/
def step (c : Cursor) : Cursor :=
  match c.rest with
  | [] => c
  | x :: xs =>
    if x = '\n' then { c with rest := xs, line := c.line + 1, column := 0, leading := true }
    else { c with rest := xs, column := c.column + 1, leading := c.leading && isBlank x }

/-- The place `n` characters further on. -/
def skip : Nat → Cursor → Cursor
  | 0, c => c
  | n + 1, c => skip n c.step

/-- Whether three equal characters and a gap follow. -/
def isMarker (c : Cursor) (mark : Char) : Bool :=
  match c.rest with
  | x :: y :: z :: cs => x == mark && y == mark && z == mark && isGap cs.head?
  | _ => false

/-- Whether the mark of a document's start or end follows. -/
def isDocumentMarker (c : Cursor) : Bool := c.isMarker '-' || c.isMarker '.'

end Cursor

/-- Something that reads forward or fails. -/
abbrev Reader := StateT Cursor Option

namespace Reader

variable {α β : Type}

/-- The next character. -/
def peek : Reader (Option Char) := return (← get).rest.head?

/-- The character `n` places behind the next. -/
def peekAt (n : Nat) : Reader (Option Char) := return (← get).rest[n]?

/-- Moves on by `n` characters. -/
def skip (n : Nat) : Reader Unit := modify (·.skip n)

/-- Fails unless a condition holds. -/
def require (condition : Bool) : Reader Unit := if condition then pure () else failure

/-- Reads a character. -/
def next : Reader Char := do
  match ← peek with
  | none => failure
  | some c => skip 1; return c

/-- Reads the characters of a kind. -/
def takeWhile (p : Char → Bool) : Reader (List Char) := do
  let cs := (← get).rest.takeWhile p
  skip cs.length
  return cs

/-- Runs a step again and again until it gives a result, at most `fuel` times. -/
def iterateWith (step : α → Reader (α ⊕ β)) : (fuel : Nat) → α → Reader β
  | 0, _ => failure
  | fuel + 1, a => do
    match ← step a with
    | .inl a => iterateWith step fuel a
    | .inr b => return b

/-- Runs a step that reads something each time until it gives a result. -/
def iterate (start : α) (step : α → Reader (α ⊕ β)) : Reader β := do
  iterateWith step (← get).bound start

/-- What stood between a place and the end of its line. -/
structure Trailing where
  space : Bool := false
  tab : Bool := false
deriving DecidableEq, Repr

/-- Reads blanks and a comment; the comment needs a blank before it. -/
def toLineEnd : Reader Trailing := do
  let blanks ← takeWhile isBlank
  if (← peek) = some '#' then
    require (!blanks.isEmpty)
    discard (takeWhile (· != '\n'))
  return { space := blanks.contains ' ', tab := blanks.contains '\t' }

end Reader

end Yaml

end PackageOutline
