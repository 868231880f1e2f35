import PackageOutline.Entries
import PackageOutline.Yaml.Core
import PackageOutline.Yaml.Layout

/-! # The documents of a text

Tokens are put together to values, without a further look at the text.

* What is missing between two marks is null.
* An alias stands for the value with its anchor; inside that value it stands for none.
* Of several values with one key the last counts, at the place of the last.
* Directives hold for the document that follows them, anchors for the one they are in. -/

namespace PackageOutline

namespace Yaml

/-- The tokens that are left and the names that are known. -/
structure Assembly where
  rest : List Token
  /-- What tag handles stand for. -/
  handles : List (String × String) := []
  /-- The numbers of the anchors by which their values are kept. -/
  anchors : List (String × Nat) := []
  values : List (Nat × Yaml) := []
  /-- The number of the next anchor. -/
  fresh : Nat := 0

namespace Assembly

/-- Puts tokens together or fails. -/
abbrev Build := StateT Assembly Option

/-- The next token. -/
def peek : Build (Option Token) := return (← get).rest.head?

/-- Moves on to the token behind the next. -/
def skip : Build Unit := modify fun s => { s with rest := s.rest.tail }

/-- Moves on if the next token is the given one; tells whether it was. -/
def skipIf (t : Token) : Build Bool := do
  if (← peek) = some t then skip; return true
  else return false

/-- Whether the next token is one of the given ones. -/
def isNext (ts : List Token) : Build Bool := return (← peek).any ts.contains

/-- Fails unless a condition holds. -/
def require (condition : Bool) : Build Unit := if condition then pure () else failure

/-! ### Properties -/

/-- The tag that a handle and what follows it make up.  The handle of two marks has a meaning of its
own, other handles of more than one character have to be declared. -/
def resolve? (handles : List (String × String)) (handle suffix : String) : Option Tag :=
  match Entries.get? handle handles with
  | some value => some ⟨value, suffix⟩
  | none =>
    if handle = "!!" then some ⟨Core.tagPrefix, suffix⟩
    else if 2 ≤ handle.length then none
    else some ⟨handle, suffix⟩

/-- Gives an anchor a number that is not used yet. -/
def register (name : String) : Build Nat := do
  let s ← get
  set { s with anchors := Entries.set name s.fresh s.anchors, fresh := s.fresh + 1 }
  return s.fresh

/-- Reads an anchor if there is one. -/
def anchor? : Build (Option Nat) := do
  match ← peek with
  | some (.anchor name) => skip; some <$> register name
  | _ => return none

/-- Reads a tag if there is one. -/
def tag? : Build (Option Tag) := do
  match ← peek with
  | some (.tag handle suffix) =>
    skip
    let some tag := resolve? (← get).handles handle suffix | failure
    return some tag
  | _ => return none

/-- Reads an anchor and a tag, in either order. -/
def properties : Build (Option Nat × Option Tag) := do
  match ← anchor? with
  | some n => return (some n, ← tag?)
  | none =>
    match ← tag? with
    | some tag => return (← anchor?, some tag)
    | none => return (none, none)

/-- Keeps the value of an anchor. -/
def keep (anchor : Option Nat) (value : Yaml) : Build Yaml := do
  match anchor with
  | some n => modify fun s => { s with values := Entries.set n value s.values }
  | none => pure ()
  return value

/-- The value that an alias stands for. -/
def deref (name : String) : Build Yaml := do
  let s ← get
  let some n := Entries.get? name s.anchors | failure
  return (Entries.get? n s.values).getD .bad

/-! ### Values -/

/-- The keys and values that take turns in a list; a key that is no value is passed over. -/
def pairUp : List Yaml → List (Yaml × Yaml)
  | [] | [_] => []
  | k :: v :: rest => if k = .bad then pairUp (v :: rest) else (k, v) :: pairUp rest

/-- The mapping of keys and values that take turns. -/
def mappingOf (nodes : List Yaml) : Yaml := .mapping (Entries.ofList (pairUp nodes))

mutual

/-- A value; `inBlock` tells whether a block may begin, `inKey` whether entries of the mapping
around it may. -/
def node : (fuel : Nat) → (inBlock inKey : Bool) → Build Yaml
  | 0, _, _ => failure
  | fuel + 1, inBlock, inKey => do
    match ← peek with
    | some (.alias name) => skip; deref name
    | _ =>
      let (anchor, tag) ← properties
      keep anchor (← content fuel inBlock inKey (anchor.isSome || tag.isSome) tag)

/-- A value without its properties.  It may be missing if there are some. -/
def content : (fuel : Nat) → (inBlock inKey hasProperties : Bool) → Option Tag → Build Yaml
  | 0, _, _, _, _ => failure
  | fuel + 1, inBlock, inKey, hasProperties, tag => do
    match ← peek, inBlock, inKey with
    | some (.scalar isPlain text), _, _ => skip; return Core.scalar tag isPlain text
    | some .flowSequenceStart, _, _ =>
      skip
      return Core.collection tag (.sequence (← flowItems fuel true))
    | some .flowMappingStart, _, _ =>
      skip
      return Core.collection tag (mappingOf (← flowPairs fuel true))
    | some .sequenceStart, true, _ =>
      skip
      return Core.collection tag (.sequence (← blockItems fuel true))
    | some .mappingStart, true, _ =>
      skip
      return Core.collection tag (mappingOf (← blockPairs fuel))
    | some .entry, _, true => return Core.collection tag (.sequence (← blockItems fuel false))
    | _, _, _ => if hasProperties then return Core.scalar tag true "" else failure

/-- A value, or null if one of the given tokens follows. -/
def nodeUnless : (fuel : Nat) → List Token → (inBlock inKey : Bool) → Build Yaml
  | 0, _, _, _ => failure
  | fuel + 1, stop, inBlock, inKey => do
    if ← isNext stop then return null else node fuel inBlock inKey

/-- The items of a block; without a block of its own it ends where no entry follows. -/
def blockItems : (fuel : Nat) → (isBlock : Bool) → Build (List Yaml)
  | 0, _ => failure
  | fuel + 1, isBlock => do
    if ← skipIf .entry then
      let stop := if isBlock then [.entry, .blockEnd] else [.entry, .key, .value, .blockEnd]
      let item ← nodeUnless fuel stop true false
      return item :: (← blockItems fuel isBlock)
    else
      if isBlock then require (← skipIf .blockEnd)
      return []

/-- The keys and values of a block in turns. -/
def blockPairs : (fuel : Nat) → Build (List Yaml)
  | 0 => failure
  | fuel + 1 => do
    let stop := [.key, .value, .blockEnd]
    if ← skipIf .blockEnd then return []
    let key ←
      if ← skipIf .key then nodeUnless fuel stop true true
      else
        require (← isNext [.value])
        pure null
    let value ← if ← skipIf .value then nodeUnless fuel stop true true else pure null
    return key :: value :: (← blockPairs fuel)

/-- The items of a sequence in brackets. -/
def flowItems : (fuel : Nat) → (first : Bool) → Build (List Yaml)
  | 0, _ => failure
  | fuel + 1, first => do
    if ← skipIf .flowSequenceEnd then return []
    if !first then require (← skipIf .flowEntry)
    if ← skipIf .flowSequenceEnd then return []
    let item ← if ← skipIf .key then flowPair fuel else node fuel false false
    return item :: (← flowItems fuel false)

/-- A mapping of one pair in a sequence in brackets, behind the mark of its key.  The token behind
a key that is missing is passed over. -/
def flowPair : (fuel : Nat) → Build Yaml
  | 0 => failure
  | fuel + 1 => do
    let key ←
      if ← isNext [.value, .flowEntry, .flowSequenceEnd] then skip; pure null
      else node fuel false false
    let value ←
      if ← skipIf .value then nodeUnless fuel [.flowEntry, .flowSequenceEnd] false false
      else pure null
    return mappingOf [key, value]

/-- The keys and values of a mapping in brackets in turns. -/
def flowPairs : (fuel : Nat) → (first : Bool) → Build (List Yaml)
  | 0, _ => failure
  | fuel + 1, first => do
    if ← skipIf .flowMappingEnd then return []
    if !first then require (← skipIf .flowEntry)
    if ← skipIf .flowMappingEnd then return []
    let marked := (← skipIf .key) || (← isNext [.value])
    let key ←
      if marked then nodeUnless fuel [.value, .flowEntry, .flowMappingEnd] false false
      else node fuel false false
    let value ←
      if marked && (← skipIf .value) then nodeUnless fuel [.flowEntry, .flowMappingEnd] false false
      else pure null
    return key :: value :: (← flowPairs fuel false)

end

/-! ### Documents -/

/-- Reads directives; the version may be given once, and only the last one about a handle counts. -/
def directives : (fuel : Nat) → (versionSeen : Bool) → Build Unit
  | 0, _ => failure
  | fuel + 1, versionSeen => do
    match ← peek with
    | some .version =>
      require !versionSeen
      skip
      modify fun s => { s with handles := [] }
      directives fuel true
    | some (.handle handle value) =>
      skip
      modify fun s => { s with handles := [(handle, value)] }
      directives fuel versionSeen
    | _ => return

/-- Whether a directive follows. -/
def isDirective : Build Bool := do
  match ← peek with
  | some .version | some (.handle ..) => return true
  | _ => return false

/-- Passes over the marks of ended documents. -/
def skipEnds : Build Unit :=
  modify fun s => { s with rest := s.rest.dropWhile (· == .documentEnd) }

/-- The value of a document that its start mark or, if `bare`, nothing but its value begins. -/
def document (fuel : Nat) (bare : Bool) : Build Yaml := do
  if !bare || (← isDirective) || (← isNext [.documentStart]) then
    directives fuel false
    require (← skipIf .documentStart)
    if (← isDirective) || (← isNext [.documentStart, .documentEnd]) || (← peek).isNone then
      return null
  node fuel true false

/-- The values of all documents.  A document without an end mark is followed by one with a start
mark and without directives. -/
def documents (fuel : Nat) : (count : Nat) → (bare : Bool) → Build (List Yaml)
  | 0, _ => failure
  | count + 1, bare => do
    skipEnds
    if (← peek).isNone then return []
    let value ← document fuel bare
    let ended ← skipIf .documentEnd
    modify fun s => { s with handles := [], anchors := [] }
    require (ended || !(← isDirective))
    return value :: (← documents fuel count ended)

end Assembly

/-- The values of the documents that tokens make up. -/
def ofTokens? (ts : List Token) : Option (List Yaml) :=
  -- no token is passed by more than four calls, and each document has a token
  ((Assembly.documents (4 * ts.length + 4) (ts.length + 1) true).run { rest := ts }).map Prod.fst

/-- The values of the documents in a text. -/
def ofText? (s : String) : Option (List Yaml) := (Token.ofText? s).bind ofTokens?

end Yaml

end PackageOutline
