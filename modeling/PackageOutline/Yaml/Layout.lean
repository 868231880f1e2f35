import PackageOutline.Yaml.Block
import PackageOutline.Yaml.Property

/-! # The tokens of a text

Indentation and line breaks decide where blocks begin and end and which scalars are keys.  A key is
recognised by the mark behind it, so whatever may turn out to be one is remembered (`PendingKey`)
until the mark or the end of its line comes; the tokens for the key are then put in front of it.

* `Layout` is what has to be known about the place that has been reached.
* `Layout.next` reads one token, with those that it implies.
* `Token.ofText?` reads them all. -/

namespace PackageOutline

namespace Yaml

/-- Something that may turn out to be a key. -/
structure PendingKey where
  /-- Whether nothing else can stand there. -/
  required : Bool
  /-- Position of its first token. -/
  token : Nat
  line : Nat
  column : Nat
deriving DecidableEq, Repr

/-- An open level of indentation.  One that does not close a block is the least indentation of what
belongs to the entry before it. -/
structure Indent where
  column : Int
  closes : Bool
deriving DecidableEq, Repr

/-- Whether a mapping of one pair may begin in a sequence in brackets, or has begun at a depth. -/
inductive Pairing where
  | possible
  | inside (depth : Nat)
deriving DecidableEq, Repr

/-- The place that has been reached in a text. -/
structure Layout where
  cursor : Cursor
  tokens : Array Token := #[]
  /-- Whether the last token is a property at the beginning of a line. -/
  afterProperty : Bool := false
  /-- Whether a key may begin. -/
  keyAllowed : Bool := true
  /-- The key that is possible among what is innermost. -/
  key : Option PendingKey := none
  /-- Those around the collections in brackets that are open, from the inside. -/
  outerKeys : List (Option PendingKey) := []
  /-- Levels of indentation, from the inside. -/
  indents : List Indent := []
  /-- Line and column at which a value may follow its mark without a blank. -/
  adjacent : Option (Nat × Nat) := none
  /-- Whether the mapping in which pairs are read has been begun. -/
  inMapping : Bool := false
  pairings : List Pairing := []

namespace Layout

/-- Reads on from a place or fails. -/
abbrev Scan := StateT Layout Option

/-- The number of collections in brackets that are open. -/
def depth (s : Layout) : Nat := s.outerKeys.length

/-- Whether a collection in brackets is open. -/
def inFlow (s : Layout) : Bool := !s.outerKeys.isEmpty

/-- The column of the innermost level of indentation. -/
def indent (s : Layout) : Int := (s.indents.head?.map Indent.column).getD (-1)

/-- Whether the innermost level of indentation is that of a block. -/
def inBlock (s : Layout) : Bool := s.indents.head?.any Indent.closes

/-- What scalars have to know. -/
def around (s : Layout) : Surroundings := ⟨s.indent, s.inFlow⟩

/-- The largest number of collections in brackets that may be open. -/
def maxDepth : Nat := 255

/-- How far behind its beginning the mark of a key may stand. -/
def maxKeyLength : Nat := 1024

/-- Reads something from the text. -/
def reading {α : Type} (r : Reader α) : Scan α := fun s =>
  (r.run s.cursor).map fun (a, cursor) => (a, { s with cursor })

/-- Fails unless a condition holds. -/
def require (condition : Bool) : Scan Unit := if condition then pure () else failure

/-- Adds a token. -/
def push (t : Token) : Scan Unit :=
  modify fun s => { s with tokens := s.tokens.push t, afterProperty := false }

/-- Puts a token at a position. -/
def insertAt (position : Nat) (t : Token) : Scan Unit :=
  modify fun s => { s with tokens := s.tokens.insertIdxIfInBounds position t }

/-- Allows or forbids a key to begin. -/
def allowKey (allowed : Bool) : Scan Unit := modify fun s => { s with keyAllowed := allowed }

/-- Allows a key to begin, or forbids it inside brackets. -/
def allowBlockKey : Scan Unit := modify fun s => { s with keyAllowed := !s.inFlow }

/-! ### Indentation -/

/-- Opens a block at a column unless it is open; its first token goes to a position, or to the
end. -/
def openBlock (column : Nat) (position : Option Nat) (t : Token) : Scan Unit := do
  if (← get).inFlow then return
  modify fun s =>
    if s.indent ≤ (column : Int) && !s.indents.isEmpty && !s.inBlock then
      { s with indents := s.indents.tail }
    else s
  if (← get).indent < (column : Int) then
    modify fun s => { s with indents := ⟨column, true⟩ :: s.indents }
    match position with
    | some position => insertAt position t
    | none => push t

/-- Asks what follows in a block to be indented further. -/
def indentFurther : Scan Unit :=
  modify fun s =>
    if !s.inFlow && s.inBlock then { s with indents := ⟨s.indent + 1, false⟩ :: s.indents } else s

/-- Leaves the levels inside the innermost block. -/
def leaveEntries : Scan Unit :=
  modify fun s => { s with indents := s.indents.dropWhile (!·.closes) }

/-- The levels to the right of a column, and the others. -/
def splitIndents (column : Int) (indents : List Indent) : List Indent × List Indent :=
  indents.span fun i => column < i.column

/-- Closes the blocks to the right of a column. -/
def closeBlocks (column : Int) : Scan Unit := do
  let s ← get
  if s.inFlow then return
  let (left, indents) := splitIndents column s.indents
  modify fun s => { s with indents }
  for i in left do
    if i.closes then push .blockEnd

/-! ### Keys -/

/-- Remembers that a key may begin here. -/
def saveKey : Scan Unit :=
  modify fun s =>
    if s.keyAllowed then
      let required := !s.inFlow && s.inBlock && s.indent = s.cursor.column
      let key := ⟨required, s.tokens.size, s.cursor.line, s.cursor.column⟩
      { s with key := some key }
    else s

/-- Gives up the key that is possible; a required one may not be given up. -/
def dropKey : Scan Unit := do
  require !((← get).key.any (·.required))
  modify fun s => { s with key := none }

/-- Gives up the key that is possible in a block if its line is over or it has become too long. -/
def dropStaleKey : Scan Unit := do
  let s ← get
  let stale := s.key.any fun k =>
    k.line < s.cursor.line || k.column + maxKeyLength < s.cursor.column
  if !s.inFlow && stale then dropKey

/-- Ends a mapping of one pair that began at this depth. -/
def endPair : Scan Unit := do
  let s ← get
  if s.pairings.head? = some (.inside s.depth) then
    set { s with inMapping := false, pairings := .possible :: s.pairings.tail }
    push .flowMappingEnd

/-! ### Blanks -/

/-- Reads blanks, line breaks and comments; tells whether there was a line break.  On a line that
holds something, tabs may not stand to the left of a block. -/
def blanks (indent : Int) : Reader Bool :=
  Reader.iterate false fun broken => do
    let c ← get
    match c.rest.head? with
    | some '\n' => Reader.skip 1; return .inl true
    | some '#' => discard (Reader.takeWhile (· != '\n')); return .inl broken
    | some ' ' => Reader.skip 1; return .inl broken
    | some '\t' =>
      if c.leading && c.column < indent then
        discard Reader.toLineEnd
        Reader.require (isLineEnd (← Reader.peek))
      else Reader.skip 1
      return .inl broken
    | _ => return .inr broken

/-- Reads what stands between two tokens. -/
def skipBlanks : Scan Unit := do
  let s ← get
  if ← reading (blanks s.indent) then
    if !s.inFlow then allowKey true

/-- Reads what stands behind the mark of a key. -/
def keyBlanks : Reader Bool :=
  Reader.iterate (false, false) fun (any, broken) => do
    match ← Reader.peek with
    | some '\n' => Reader.skip 1; return .inl (true, true)
    | some '#' => discard (Reader.takeWhile (· != '\n')); return .inl (any, broken)
    | some ' ' => Reader.skip 1; return .inl (true, broken)
    | after =>
      Reader.require (any && after != some '\t')
      return .inr broken

/-! ### Tokens -/

/-- Reads the mark of a document's start or end. -/
def documentMark (t : Token) : Scan Unit := do
  closeBlocks (-1)
  dropKey
  allowKey false
  reading (Reader.skip 3)
  push t
  if t = .documentEnd then
    reading do
      discard Reader.toLineEnd
      Reader.require (isLineEnd (← Reader.peek))

/-- Reads a directive. -/
def directiveLine : Scan Unit := do
  closeBlocks (-1)
  dropKey
  allowKey false
  push (← reading directive)

/-- Reads an opening bracket. -/
def flowStart (isMapping : Bool) : Scan Unit := do
  saveKey
  indentFurther
  require ((← get).depth < maxDepth)
  modify fun s => { s with key := none, outerKeys := s.key :: s.outerKeys, keyAllowed := true }
  if isMapping then modify fun s => { s with inMapping := true }
  else modify fun s => { s with pairings := .possible :: s.pairings }
  reading do
    Reader.skip 1
    discard Reader.toLineEnd
  push (if isMapping then .flowMappingStart else .flowSequenceStart)

/-- Reads a closing bracket. -/
def flowEnd (isMapping : Bool) : Scan Unit := do
  require (← get).inFlow
  dropKey
  if !isMapping then
    endPair
    modify fun s => { s with pairings := s.pairings.tail }
  modify fun s =>
    { s with key := s.outerKeys.head?.join, outerKeys := s.outerKeys.tail, keyAllowed := false }
  reading do
    Reader.skip 1
    discard Reader.toLineEnd
  modify fun s =>
    if s.inFlow then { s with adjacent := some (s.cursor.line, s.cursor.column) } else s
  push (if isMapping then .flowMappingEnd else .flowSequenceEnd)

/-- Reads a comma between brackets. -/
def flowEntry : Scan Unit := do
  dropKey
  allowKey true
  endPair
  reading do
    Reader.skip 1
    discard Reader.toLineEnd
  push .flowEntry

/-- Reads the mark of an entry of a block. -/
def blockEntry : Scan Unit := do
  let s ← get
  require (!s.inFlow && s.keyAllowed)
  require !(s.afterProperty && s.cursor.column = 0 && !s.indents.isEmpty)
  reading (Reader.skip 1)
  openBlock s.cursor.column none .sequenceStart
  let trailing ← reading Reader.toLineEnd
  let c := (← get).cursor
  require !(trailing.tab && c.rest.head? = some '-' && isGap c.rest[1]?)
  if c.rest.head?.any fun x => x = '\n' || isFlowMark x then indentFurther
  dropKey
  allowKey true
  push .entry

/-- Reads the mark of a key. -/
def keyMark : Scan Unit := do
  let s ← get
  if s.inFlow then set { s with inMapping := true }
  else
    require s.keyAllowed
    openBlock s.cursor.column none .mappingStart
  dropKey
  allowBlockKey
  reading (Reader.skip 1)
  if (← reading keyBlanks) && !s.inFlow then allowKey true
  push .key

/-- Reads the mark of a value. -/
def valueMark : Scan Unit := do
  let s ← get
  let here := s.cursor
  let single := !s.pairings.isEmpty && !s.inMapping
  if single then set { s with pairings := .inside s.depth :: s.pairings.tail }
  reading do
    Reader.skip 1
    if (← Reader.peek) = some '\t' then
      let trailing ← Reader.toLineEnd
      let after ← Reader.peek
      Reader.require (trailing.space || !after.any isWordChar)
  match s.key with
  | some key =>
    insertAt key.token .key
    if single then
      require (here.line ≤ key.line)
      insertAt key.token .flowMappingStart
    openBlock key.column (some key.token) .mappingStart
    indentFurther
    modify fun s => { s with key := none, keyAllowed := false }
  | none =>
    if single then push .flowMappingStart
    if !s.inFlow then
      require s.keyAllowed
      openBlock here.column none .mappingStart
    indentFurther
    allowBlockKey
  push .value

/-- Reads an anchor, an alias or a tag. -/
def property (r : Reader Token) : Scan Unit := do
  let s ← get
  saveKey
  allowKey false
  let t ← reading r
  push t
  modify fun s' => { s' with afterProperty := t.isProperty && s.cursor.column = 0 }

/-- Reads a block scalar. -/
def blockScalar (isLiteral : Bool) : Scan Unit := do
  saveKey
  allowKey true
  leaveEntries
  let s ← get
  push (.scalar false (← reading (block isLiteral s.indent)))

/-- Reads a quoted scalar.  What follows it on its line has to belong to another token. -/
def quotedScalar (mark : Char) : Scan Unit := do
  saveKey
  allowKey false
  let s ← get
  let text ← reading do
    let text ← quoted mark s.around
    discard Reader.toLineEnd
    return text
  let c := (← get).cursor
  require <| match c.rest.head? with
    | none => true
    | some x =>
      x = '\n' || (s.inFlow && (x = ',' || x = '}' || x = ']')) ||
        (x = ':' && (s.inFlow || c.line = s.cursor.line))
  skipBlanks
  modify fun s => { s with adjacent := some (s.cursor.line, s.cursor.column) }
  push (.scalar false text)

/-- Reads a plain scalar. -/
def plainScalar : Scan Unit := do
  saveKey
  allowKey false
  leaveEntries
  let s ← get
  let text ← reading (plain s.around)
  if (← get).cursor.leading then allowKey true
  push (.scalar true text)

/-- Reads the token that begins with a character. -/
def token (c : Char) (after : Option Char) : Scan Unit := do
  let s ← get
  let isAdjacent := s.adjacent = some (s.cursor.line, s.cursor.column)
  match c with
  | '[' => flowStart false
  | '{' => flowStart true
  | ']' => flowEnd false
  | '}' => flowEnd true
  | ',' => flowEntry
  | '-' => if isGap after then blockEntry else plainScalar
  | '?' => if isGap after then keyMark else plainScalar
  | ':' =>
    if isGap after then valueMark
    else if s.inFlow && (isAdjacent || after.any isFlowMark) then
      require (isAdjacent || !(after = some '[' || after = some '{'))
      valueMark
    else plainScalar
  | '*' => property (Token.alias <$> anchorName)
  | '&' => property (Token.anchor <$> anchorName)
  | '!' => property (tag s.around)
  | '|' => if s.inFlow then plainScalar else blockScalar true
  | '>' => if s.inFlow then plainScalar else blockScalar false
  | '\'' => quotedScalar '\''
  | '"' => quotedScalar '"'
  | '%' | '@' | '`' => failure
  | _ => plainScalar

/-- Ends the text. -/
def finish : Scan Unit := do
  let s ← get
  require !((s.key :: s.outerKeys).any fun key => key.any (·.required))
  closeBlocks (-1)

/-- Reads a token with those that it implies; tells whether the text goes on. -/
def next : Scan Bool := do
  skipBlanks
  dropStaleKey
  let s ← get
  closeBlocks s.cursor.column
  match s.cursor.rest with
  | [] => finish; return false
  | c :: cs =>
    if s.cursor.column = 0 && c = '%' then directiveLine
    else if s.cursor.column = 0 && s.cursor.isMarker '-' then documentMark .documentStart
    else if s.cursor.column = 0 && s.cursor.isMarker '.' then documentMark .documentEnd
    else
      require ((← get).indent ≤ s.cursor.column ||
        (s.inFlow && (c = ']' || c = '}' || c = ',')))
      token c cs.head?
    return true

/-- Reads at most `fuel` tokens and the end of the text. -/
def run : (fuel : Nat) → Scan Unit
  | 0 => failure
  | fuel + 1 => do if ← next then run fuel

end Layout

/-- The tokens of a text, if it is well formed. -/
def Token.ofText? (s : String) : Option (List Token) :=
  let cursor := Cursor.ofString s
  ((Layout.run cursor.bound).run { cursor }).map fun (_, s) => s.tokens.toList

end Yaml

end PackageOutline
