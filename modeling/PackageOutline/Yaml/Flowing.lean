import PackageOutline.Yaml.Cursor

/-! # Plain and quoted scalars

Scalars that flow over lines: a gap between two runs of characters counts as it is within a line,
and as a space, or as its further breaks, when it holds a line break (`Gap.fold`). -/

namespace PackageOutline

namespace Yaml

/-- Where a scalar stands. -/
structure Surroundings where
  /-- The column of the innermost block, `-1` outside all. -/
  indent : Int
  /-- Whether a collection in brackets is open. -/
  inFlow : Bool
deriving DecidableEq, Repr

/-- What was read between two runs of characters. -/
structure Gap where
  blanks : List Char := []
  /-- Number of line breaks behind the first, once there is one. -/
  breaks : Option Nat := none
deriving DecidableEq, Repr

namespace Gap

/-- The gap behind a line break. -/
def newLine (g : Gap) : Gap := { breaks := some (g.breaks.elim 0 (· + 1)) }

/-- Line breaks as they are. -/
def lines (n : Nat) : String := String.ofList (List.replicate n '\n')

/-- What a gap counts as. -/
def fold (g : Gap) : String :=
  match g.breaks with
  | none => String.ofList g.blanks
  | some 0 => " "
  | some n => lines n

end Gap

open Reader

/-- The value of a hexadecimal digit. -/
def hexDigit? (c : Char) : Option Nat :=
  if c.isDigit then some (c.toNat - '0'.toNat)
  else if 'a' ≤ c && c ≤ 'f' then some (c.toNat - 'a'.toNat + 10)
  else if 'A' ≤ c && c ≤ 'F' then some (c.toNat - 'A'.toNat + 10)
  else none

/-- The character of a code point that has one. -/
def charOf? (n : Nat) : Option Char := if n.isValidChar then some (Char.ofNat n) else none

/-- Reads blanks and line breaks; blanks that begin a line are read by `check`. -/
def gap (start : Gap) (check : Char → Reader Unit) : Reader Gap :=
  iterate start fun g => do
    match ← peek with
    | some '\n' => skip 1; return .inl g.newLine
    | some c =>
      if !isBlank c then return .inr g
      else if g.breaks.isSome then check c; return .inl g
      else return .inl { g with blanks := g.blanks ++ (← takeWhile isBlank) }
    | none => return .inr g

/-! ### Quoted scalars -/

/-- Reads a code point of `n` hexadecimal digits. -/
def codePoint (n : Nat) : Reader Char := do
  let value ← (List.range n).foldlM (fun value _ => do
    let some digit := hexDigit? (← next) | failure
    return value * 16 + digit) 0
  let some c := charOf? value | failure
  return c

/-- Reads what follows a backslash. -/
def escape : Reader Char := do
  match ← next with
  | '0' => return '\x00'
  | 'a' => return '\x07'
  | 'b' => return '\x08'
  | 't' | '\t' => return '\t'
  | 'n' => return '\n'
  | 'v' => return '\x0b'
  | 'f' => return '\x0c'
  | 'r' => return '\r'
  | 'e' => return '\x1b'
  | ' ' => return ' '
  | '"' => return '"'
  | '/' => return '/'
  | '\\' => return '\\'
  | 'N' => return '\u0085'
  | '_' => return '\u00a0'
  | 'L' => return '\u2028'
  | 'P' => return '\u2029'
  | 'x' => codePoint 2
  | 'u' => codePoint 4
  | 'U' => codePoint 8
  | _ => failure

/-- Reads characters inside quotation marks up to a gap, the closing mark or a line break behind a
backslash, which is read; also tells whether it was that. -/
def quotedRun (mark : Char) : Reader (String × Bool) :=
  iterate "" fun s => do
    let c ← peek
    let after ← peekAt 1
    match c with
    | none => return .inr (s, false)
    | some c =>
      if isGap c then return .inr (s, false)
      else if c = mark then
        if mark = '\'' && after = some '\'' then skip 2; return .inl (s.push '\'')
        else return .inr (s, false)
      else if c = '\\' && mark = '"' then
        skip 1
        if after = some '\n' then skip 1; return .inr (s, true)
        else return .inl (s.push (← escape))
      else skip 1; return .inl (s.push c)

/-- Reads a quoted scalar.  It may not hold the mark of a document, and its lines may not begin to
the left of the block around it. -/
def quoted (mark : Char) (around : Surroundings) : Reader String := do
  skip 1
  let s ← iterate "" fun s => do
    let c ← get
    require (!(c.column == 0 && c.isDocumentMarker) && around.indent ≤ c.column)
    require !c.rest.isEmpty
    let (run, joined) ← quotedRun mark
    let s := s ++ run
    if (← peek) = some mark then return .inr s
    let g ← gap { breaks := if joined then some 0 else none } fun blank => do
      require (blank = ' ' || around.indent ≤ (← get).column)
      skip 1
    return .inl (s ++ if joined then Gap.lines (g.breaks.getD 0) else g.fold)
  skip 1
  return s

/-! ### Plain scalars -/

/-- Whether a character ends a run of a plain scalar. -/
def endsPlain (inFlow : Bool) (c : Char) (after : Option Char) : Bool :=
  isGap c || (inFlow && isFlowMark c) ||
    (c == ':' && (isGap after || (inFlow && after.any isFlowMark)))

/-- The characters up to one that ends the run. -/
def plainRun (inFlow : Bool) : List Char → List Char
  | [] => []
  | c :: cs => if endsPlain inFlow c cs.head? then [] else c :: plainRun inFlow cs

/-- Reads a plain scalar.  It ends where a comment, a mark or a line to the left of its block
begins. -/
def plain (around : Surroundings) : Reader String := do
  let minimum := around.indent + 1
  require (!around.inFlow || minimum ≤ (← get).column)
  let s ← iterate ("", ({} : Gap)) fun (s, g) => do
    let c ← get
    if (c.leading && c.isDocumentMarker) || c.rest.head? = some '#' then return .inr s
    require !(around.inFlow && c.rest.head? = some '-' && c.rest[1]?.any isFlowMark)
    let run := plainRun around.inFlow c.rest
    skip run.length
    let s := if run.isEmpty then s else s ++ g.fold ++ String.ofList run
    if !isGap (← peek) || (← get).rest.isEmpty then return .inr s
    let g ← gap {} fun blank => do
      if blank = '\t' && (← get).column < minimum then
        discard toLineEnd
        require (isLineEnd (← peek))
      else skip 1
    if !around.inFlow && (← get).column < minimum then return .inr s
    return .inl (s, g)
  require (s != "")
  return s

end Yaml

end PackageOutline
